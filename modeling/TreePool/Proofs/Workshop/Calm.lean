import TreePool.Proofs.Pool.Calm
import TreePool.Proofs.Pool.Evacuation
import TreePool.Proofs.Workshop.Chronicle

/-! # Two runs that differ in panics

Take a run of a workshop, leave out the steps in which workers handle panics and go on, and let any
bodies that were submitted panic or not as you like, if only what they panic with can be dropped.
Then there is a run that consists of these steps, but for workers that handle panics in between, and
it leads to the same state but for what panics leave behind: the same tasks have been taken, and the
counters of the pools are the same. A panic with something whose destructor panics is another
matter, as it costs a worker.
-/

namespace TreePool
namespace Workshop

variable {shop other between next : Workshop} {pool moved : Pool Effect} {id : PoolId}
variable {move move' : Move} {moves moves' : List Move} {worker : Nat} {phase : Phase Effect}

/-- The workshop as it would be if no body had panicked, but for panics that cost a worker, and
nobody had marked an outcome. -/
def calm (shop : Workshop) : Workshop := { shop with pools := shop.pools.map Pool.calm }

def Move.calm : Move → Move
  | turn ⟨pool, action⟩ => turn ⟨pool, action.calm⟩
  | move => move

def handles (shop : Workshop) : Move → Bool
  | .turn turn => (shop.pool? turn.pool).any (·.handles turn.action)
  | _ => false

/-- The moves of a run without those of workers that handle panics and go on. -/
def core (shop : Workshop) : List Move → List Move
  | [] => []
  | move :: rest =>
    (if shop.handles move then [] else [move]) ++ (shop.move? move).elim [] (·.core rest)

/-! ## Moves of calm workshops -/

@[simp] theorem calm_calm (shop : Workshop) : shop.calm.calm = shop.calm := by
  simp [calm, Function.comp_def]

@[simp] theorem pool?_calm (shop : Workshop) (id : PoolId) :
    shop.calm.pool? id = (shop.pool? id).map Pool.calm :=
  List.getElem?_map

@[simp] theorem calm_setPool (shop : Workshop) (id : PoolId) (pool : Pool Effect) :
    (shop.setPool id pool).calm = shop.calm.setPool id pool.calm := by
  simp [calm, setPool, List.map_set]

@[simp] theorem calm_fail (shop : Workshop) (id : PoolId) : (shop.fail id).calm = shop.calm := by
  have hpools : (shop.pools.modify id Pool.fail).map Pool.calm = shop.pools.map Pool.calm := by
    apply List.ext_getElem?
    intro other
    rw [List.getElem?_map, List.getElem?_modify, List.getElem?_map]
    cases shop.pools[other]? with
    | none => rfl
    | some pool => by_cases hid : id = other <;> simp [hid]
  simp [calm, Workshop.fail, hpools]

theorem calm_record (shop : Workshop) (id : ErrandId) (record : Record) :
    (shop.calm.record id record).calm = (shop.record id record).calm := by
  have herrands : shop.calm.errands = shop.errands := rfl
  simp only [Workshop.record, herrands]
  cases shop.errands[id]? with
  | none => exact calm_calm shop
  | some errand =>
    dsimp only
    cases errand.marks record with
    | none => simp [calm, Function.comp_def]
    | some outcome =>
      simp only [calm_fail]
      simp [calm, Function.comp_def]

theorem calm_recordAll (shop : Workshop) (id : ErrandId) (records : List Record) :
    (shop.calm.recordAll id records).calm = (shop.recordAll id records).calm := by
  induction records generalizing shop with
  | nil => exact calm_calm shop
  | cons record records ih =>
    have hfirst := ih (shop.calm.record id record)
    rw [calm_record] at hfirst
    exact hfirst.symm.trans (ih (shop.record id record))

theorem calm_copy (shop : Workshop) (id : ErrandId) :
    (shop.calm.copy id).calm = (shop.copy id).calm := by
  have herrands : shop.calm.errands = shop.errands := rfl
  simp only [Workshop.copy, herrands]
  cases shop.errands[id]? with
  | none => exact calm_calm shop
  | some errand =>
    exact calm_recordAll { shop with files := (errand.carryOut shop.files).1 } id _

theorem calm_perform (shop : Workshop) (id : PoolId) (effect : Effect) :
    (shop.calm.perform id effect).calm = (shop.perform id effect).calm := by
  cases effect with
  | fail => simp [perform]
  | record errand record => exact calm_record shop errand record
  | copy errand => exact calm_copy shop errand
  | begin | finish | await => simp [perform, calm, Function.comp_def]

theorem calm_perform_congr (h : shop.calm = other.calm) (id : PoolId) (effect : Effect) :
    (shop.perform id effect).calm = (other.perform id effect).calm := by
  rw [← calm_perform shop, h, calm_perform other]

theorem map_calm_step? {turn : Turn} (hm : shop.handles (.turn turn) = false) :
    (shop.calm.step? ⟨turn.pool, turn.action.calm⟩).map calm = (shop.step? turn).map calm := by
  simp only [step?, pool?_calm, Option.bind_eq_bind]
  cases hp : shop.pool? turn.pool with
  | none => rfl
  | some pool =>
    have hpool : pool.handles turn.action = false := by
      rw [handles, hp] at hm
      exact hm
    have hstep := Pool.map_calm_step? hpool
    simp only [Option.map_some, Option.bind_some]
    rw [Pool.effect?_calm]
    cases hs : pool.step? turn.action with
    | none =>
      rw [hs, Option.map_none, Option.map_eq_none_iff] at hstep
      rw [hstep, Option.bind_none, Option.bind_none]
    | some moved =>
      rw [hs, Option.map_some] at hstep
      obtain ⟨moved', hs', hcalm⟩ := Option.map_eq_some_iff.mp hstep
      have hset : (shop.calm.setPool turn.pool moved').calm =
          (shop.setPool turn.pool moved).calm := by
        rw [calm_setPool, calm_setPool, hcalm, calm_calm]
      rw [hs', Option.bind_some, Option.bind_some]
      cases pool.effect? turn.action with
      | none => exact congrArg some hset
      | some effect =>
        dsimp only
        rw [show shop.calm.allows effect = shop.allows effect from by cases effect <;> rfl]
        split_ifs
        · exact congrArg some (calm_perform_congr hset turn.pool effect)
        · rfl

/-- Where no panic is handled, a move is possible or not whatever bodies panicked and will panic,
and leads to the same. -/
theorem map_calm_move? (hm : shop.handles move = false) :
    (shop.calm.move? move.calm).map calm = (shop.move? move).map calm := by
  cases move with
  | turn turn => exact map_calm_step? hm
  | found size fragile =>
    simp only [Move.calm, move?]
    split_ifs
    · simp [calm, addPool, Function.comp_def]
    · rfl
  | add directory source destination level outcome =>
    have hlength : shop.calm.pools.length = shop.pools.length := List.length_map _
    simp only [Move.calm, move?, hlength]
    split
    · split_ifs
      · simp [calm, addErrand, Function.comp_def]
      · rfl
    · rfl
  | record id record => exact congrArg some (calm_record shop id record)
  | copy id => exact congrArg some (calm_copy shop id)
  | release | change => simp [Move.calm, move?, calm, release, Function.comp_def]

/-! ## Workers that handle panics -/

theorem exists_pool_of_handles (hm : shop.handles move = true) :
    ∃ turn pool, move = .turn turn ∧ shop.pool? turn.pool = some pool ∧
      pool.handles turn.action = true := by
  cases move with
  | turn turn =>
    obtain ⟨pool, hp, hpool⟩ := (Option.any_eq_true _ _).mp hm
    exact ⟨turn, pool, rfl, hp, hpool⟩
  | _ => cases hm

theorem setPool_of_pool? (hp : shop.pool? id = some pool) : shop.setPool id pool = shop := by
  obtain ⟨hlt, rfl⟩ := List.getElem?_eq_some_iff.mp hp
  rw [setPool, List.set_getElem_self]

theorem calm_of_handles (hm : shop.handles move = true) (hs : shop.move? move = some next) :
    next.calm = shop.calm := by
  obtain ⟨turn, pool, rfl, hp, hpool⟩ := exists_pool_of_handles hm
  obtain ⟨pool', hp', hs⟩ := Option.bind_eq_some_iff.mp hs
  obtain rfl : pool = pool' := Option.some.inj (hp.symm.trans hp')
  obtain ⟨moved, hmoved, hs⟩ := Option.bind_eq_some_iff.mp hs
  rw [Pool.effect?_of_handles hpool] at hs
  cases hs
  rw [calm_setPool, Pool.calm_of_handles hpool hmoved]
  apply setPool_of_pool?
  rw [pool?_calm, hp, Option.map_some]

theorem move?_of_handles {action : Action Effect} (hp : shop.pool? id = some pool)
    (hm : pool.handles action = true) (hs : pool.step? action = some moved) :
    shop.move? (.turn ⟨id, action⟩) = some (shop.setPool id moved) := by
  simp [move?, step?, hp, hs, Pool.effect?_of_handles hm]

theorem core_cons (hm : shop.move? move = some next) :
    shop.core (move :: moves) = (if shop.handles move then [] else [move]) ++ next.core moves := by
  rw [core, hm]
  rfl

/-- A worker that has logged a panic marks the outcome, and has then handled it. -/
theorem exists_settled_of_failing {ticket : Ticket} {cause : Cause}
    (hp : shop.pool? id = some pool) (hc : cause.isExplosive = false)
    (hw : pool.workers[worker]? = some (.failing ticket cause)) :
    ∃ next, shop.play? [.turn ⟨id, .worker worker none⟩] = some next ∧
      shop.core [.turn ⟨id, .worker worker none⟩] = [] ∧ next.calm = shop.calm ∧
      ∀ woken, next.handles (.turn ⟨id, .worker worker woken⟩) = false := by
  have hpool : pool.handles (.worker worker none) = true := by
    rw [Pool.handles, hw, Option.any_some, Phase.isCalmed, hc]
    rfl
  have hshop : shop.handles (.turn ⟨id, .worker worker none⟩) = true := by
    rw [handles, hp]
    exact hpool
  have hmove := move?_of_handles hp hpool (Pool.step?_of_failing hc hw)
  refine ⟨_, ?_, ?_, calm_of_handles hshop hmove, ?_⟩
  · exact after?_cons hmove
  · rw [core_cons hmove, hshop]
    rfl
  · intro woken
    rw [handles, pool?_setPool _ hp, Option.any_some, Pool.handles,
      pool.fail.getElem?_workers_move hw]
    rfl

theorem core_append (hp : shop.play? moves = some between) :
    shop.core (moves ++ moves') = shop.core moves ++ between.core moves' := by
  induction moves generalizing shop with
  | nil =>
    cases Option.some.inj hp
    rfl
  | cons move moves ih =>
    obtain ⟨first, hm, hrest⟩ := after?_cons_eq_some_iff.mp hp
    rw [List.cons_append, core_cons hm, core_cons hm, ih hrest, List.append_assoc]

/-- A worker that is about to handle a panic can do so, which nobody notices; then it is not. -/
theorem exists_settled (shop : Workshop) (move : Move) :
    ∃ moves next, shop.play? moves = some next ∧ shop.core moves = [] ∧ next.calm = shop.calm ∧
      next.handles move = false := by
  cases hm : shop.handles move with
  | false => exact ⟨[], shop, rfl, rfl, rfl, hm⟩
  | true =>
    obtain ⟨⟨id, action⟩, pool, rfl, hp, hpool⟩ := exists_pool_of_handles hm
    obtain ⟨worker, woken, phase, rfl, hw, hphase⟩ := Pool.exists_worker_of_handles hpool
    cases phase with
    | failing ticket cause =>
      have hcause : cause.isExplosive = false := by simpa [Phase.isCalmed] using hphase
      obtain ⟨next, hplay, hcore, hcalm, hnot⟩ := exists_settled_of_failing hp hcause hw
      exact ⟨_, next, hplay, hcore, hcalm, hnot woken⟩
    | caught ticket cause =>
      have hcause : cause.isExplosive = false := by simpa [Phase.isCalmed] using hphase
      have hhandles : shop.handles (.turn ⟨id, .worker worker none⟩) = true := hm
      let logged := (pool.note (.taskPanicked worker cause)).move worker (.failing ticket cause)
      have hfailing : logged.workers[worker]? = some (.failing ticket cause) :=
        (pool.note _).getElem?_workers_move hw _
      have hmove : shop.move? (.turn ⟨id, .worker worker none⟩) = some (shop.setPool id logged) :=
        move?_of_handles hp hpool (Pool.step?_of_caught hw)
      have hfirst : shop.play? [.turn ⟨id, .worker worker none⟩] =
          some (shop.setPool id logged) :=
        after?_cons hmove
      obtain ⟨next, hplay, hcore, hcalm, hnot⟩ :=
        exists_settled_of_failing (pool?_setPool logged hp) hcause hfailing
      refine ⟨_, next, (after?_append hfirst).trans hplay, ?_, ?_, hnot woken⟩
      · rw [core_append hfirst, hcore, core_cons hmove, hhandles]
        rfl
      · exact hcalm.trans (calm_of_handles hhandles hmove)
    | _ => cases hphase

/-! ## Runs side by side -/

/-- What one workshop does, another one can do that differs in panics, after some worker has handled
a panic if need be. -/
theorem exists_move?_of_calm_eq (hcalm : other.calm = shop.calm) (hm : shop.handles move = false)
    (hs : shop.move? move = some next) (heq : move'.calm = move.calm) :
    ∃ moves next', other.play? moves = some next' ∧ other.core moves = [move'] ∧
      next'.calm = next.calm := by
  obtain ⟨settling, settled, hplay, hcore, hsettled, hnot⟩ := exists_settled other move'
  have hmove : (settled.move? move').map calm = some next.calm := by
    rw [← map_calm_move? hnot, heq, hsettled, hcalm, map_calm_move? hm, hs, Option.map_some]
  obtain ⟨next', hs', hnext⟩ := Option.map_eq_some_iff.mp hmove
  refine ⟨settling ++ [move'], next', ?_, ?_, hnext⟩
  · exact (after?_append hplay).trans (after?_cons hs')
  · rw [core_append hplay, hcore, core_cons hs', hnot]
    rfl

/-- What a workshop does in a run, another one can do that differs in panics, and the bodies that it
is given may panic or not where those of the first one do. -/
theorem exists_play?_of_calm_eq (hcalm : other.calm = shop.calm)
    (hp : shop.play? moves = some next)
    (heq : moves'.map Move.calm = (shop.core moves).map Move.calm) :
    ∃ run next', other.play? run = some next' ∧ other.core run = moves' ∧
      next'.calm = next.calm := by
  induction moves generalizing shop other moves' with
  | nil =>
    cases Option.some.inj hp
    rw [core, List.map_nil, List.map_eq_nil_iff] at heq
    exact ⟨[], other, rfl, heq.symm, hcalm⟩
  | cons move moves ih =>
    obtain ⟨between, hs, hrest⟩ := after?_cons_eq_some_iff.mp hp
    rw [core_cons hs] at heq
    cases hm : shop.handles move with
    | true =>
      rw [hm, if_pos rfl, List.nil_append] at heq
      exact ih (hcalm.trans (calm_of_handles hm hs).symm) hrest heq
    | false =>
      rw [hm, if_neg Bool.false_ne_true, List.singleton_append, List.map_cons] at heq
      obtain ⟨move', rest, rfl, hhead, htail⟩ := List.map_eq_cons_iff.mp heq
      obtain ⟨first, between', hfirst, hcore, hbetween⟩ :=
        exists_move?_of_calm_eq hcalm hm hs hhead
      obtain ⟨later, next', hlater, hcore', hnext⟩ := ih hbetween hrest htail
      refine ⟨first ++ later, next', ?_, ?_, hnext⟩
      · exact (after?_append hfirst).trans hlater
      · rw [core_append hfirst, hcore, hcore']
        rfl

/-- Two states that differ in what panics leave behind, if at all: the workers stand where they
stood, the same tasks were taken and are left, and the counters are the same. -/
structure Alike (shop other : Workshop) : Prop where
  calm : other.calm = shop.calm
  files : other.files = shop.files
  errands : other.errands = shop.errands
  pools : ∀ id pool, shop.pool? id = some pool → ∃ pool', other.pool? id = some pool' ∧
    pool'.pulled = pool.pulled ∧ pool'.accepted = pool.accepted ∧
    pool'.queue.tasks.map Task.ticket = pool.queue.tasks.map Task.ticket ∧
    pool'.alive = pool.alive ∧ pool'.working = pool.working ∧
    pool'.workers.map Phase.calm = pool.workers.map Phase.calm

theorem alike_of_calm_eq (h : other.calm = shop.calm) : Alike shop other := by
  refine ⟨h, ?_, ?_, ?_⟩
  · change other.calm.files = shop.calm.files
    rw [h]
  · change other.calm.errands = shop.calm.errands
    rw [h]
  · intro id pool hp
    have hpool : (other.pool? id).map Pool.calm = some pool.calm := by
      rw [← pool?_calm, h, pool?_calm, hp, Option.map_some]
    obtain ⟨pool', hp', hcalm⟩ := Option.map_eq_some_iff.mp hpool
    have hqueue (pool : Pool Effect) :
        pool.calm.queue.tasks.map Task.ticket = pool.queue.tasks.map Task.ticket := by
      simp [Pool.calm, GatedQueue.calm, Task.calm, Function.comp_def]
    have hsame {α : Type} (field : Pool Effect → α) : field pool'.calm = field pool.calm := by
      rw [hcalm]
    refine ⟨pool', hp', hsame Pool.pulled, hsame Pool.accepted, ?_, hsame Pool.alive,
      hsame Pool.working, hsame Pool.workers⟩
    rw [← hqueue pool', hcalm, hqueue]

/-- What can be told of the failures in a run: the outcomes say what has happened so far, and will
go on to do so; and whether bodies panic, with anything that can be dropped, makes no difference to
anything else. -/
structure Accounted (first : Workshop) (moves : List Move) (shop : Workshop) : Prop where
  chronicle : Chronicle (first.incidents moves) shop
  lasting : ∀ more next, shop.play? more = some next → Suffers shop next (shop.incidents more)
  contained : ∀ moves', moves'.map Move.calm = (first.core moves).map Move.calm →
    ∃ run other, first.play? run = some other ∧ first.core run = moves' ∧ Alike shop other

theorem accounted_of_play? {files : FileSystem}
    (hp : ({ files } : Workshop).play? moves = some shop) : Accounted { files } moves shop := by
  refine ⟨?_, ?_, ?_⟩
  · exact (Chronicle.start files).play? hp
  · intro more next hmore
    exact suffers_play? hmore
  · intro moves' heq
    obtain ⟨run, other, hplay, hcore, hcalm⟩ := exists_play?_of_calm_eq rfl hp heq
    exact ⟨run, other, hplay, hcore, alike_of_calm_eq hcalm⟩

/-- Two pools with a worker each. The worker of the first one runs a body and ends up resting; a
failure is recorded on an errand that is bound to no outcome. -/
def twoPools (body : Body Effect) (ending : List (Action Effect)) : List Move :=
  List.flatten [[.found 1 false, .found 1 false, .add ⟨[]⟩ ⟨[]⟩ ⟨[]⟩ 0 none],
    (List.flatten [[.spawn none, .owner], List.replicate 3 (.worker 0 none), [.owner, .owner],
      List.replicate 2 (.worker 0 none),
      [.call (.submit body), .caller 0 none, .caller 0 (some 0)],
      List.replicate 5 (.worker 0 none), ending, [.worker 0 none]]).map fun action =>
        .turn ⟨0, action⟩,
    [.record 0 (.failure ⟨[]⟩)]]

/-- A panic of the one task, and the two steps in which it is handled. -/
def onePanic : List Move :=
  twoPools (.panic (.text "out of paper")) (List.replicate 2 (.worker 0 none))

theorem accounted_onePanic :
    ∃ shop, ({ files := ⟨[], []⟩ } : Workshop).play? onePanic = some shop ∧
      shop.pools.map Pool.outcome = [false, true] ∧
      ({ files := ⟨[], []⟩ } : Workshop).incidents onePanic =
        [.handled 0 0 0, .recorded 0 none] ∧
      (twoPools .done []).map Move.calm =
        (({ files := ⟨[], []⟩ } : Workshop).core onePanic).map Move.calm ∧
      Accounted { files := ⟨[], []⟩ } onePanic shop := by
  have htest : (({ files := ⟨[], []⟩ } : Workshop).play? onePanic).any (fun shop =>
      shop.pools.map Pool.outcome = [false, true]) = true := by
    decide +kernel
  obtain ⟨shop, hp, ht⟩ := (Option.any_eq_true _ _).mp htest
  exact ⟨shop, hp, of_decide_eq_true ht, by decide +kernel, by rfl, accounted_of_play? hp⟩

/-- The one worker of a pool is through with a task, in one way or the other, when a second one is
submitted. -/
def twoTasks (body : Body Effect) : List (Action Effect) :=
  List.flatten [[.spawn none, .owner], List.replicate 3 (.worker 0 none), [.owner, .owner],
    List.replicate 2 (.worker 0 none), [.call (.submit body), .caller 0 none, .caller 0 (some 0)],
    List.replicate 7 (.worker 0 none), [.call (.submit .done), .caller 1 none, .caller 1 none]]

/-- The second task runs if the first one returns. If that panics with something whose destructor
panics, the second one never runs, and the dead worker counts as working and as alive. -/
theorem panic_stops_pool :
    (∃ pool : Pool Effect, (Pool.start 1 false).play?
        (twoTasks .done ++ List.replicate 6 (.worker 0 none)) = some pool ∧
      pool.pulled = [0, 1] ∧ pool.working = 0) ∧
    ∃ pool : Pool Effect, (Pool.start 1 false).play? (twoTasks (.panic .explosive)) = some pool ∧
      pool.accepted = [0, 1] ∧ ∀ later next, pool.play? later = some next →
        next.pulled = [0] ∧ next.working = 1 ∧ next.alive = 1 := by
  constructor
  · have htest : ((Pool.start 1 false : Pool Effect).play?
        (twoTasks .done ++ List.replicate 6 (.worker 0 none))).any
          (fun pool => pool.pulled = [0, 1] ∧ pool.working = 0) = true := by
      decide +kernel
    obtain ⟨pool, hp, ht⟩ := (Option.any_eq_true _ _).mp htest
    exact ⟨pool, hp, of_decide_eq_true ht⟩
  · have htest : ((Pool.start 1 false : Pool Effect).play? (twoTasks (.panic .explosive))).any
        (fun pool => pool.accepted = [0, 1] ∧ pool.workers = [.lost] ∧ pool.size = 1 ∧
          pool.pulled = [0] ∧ pool.working = 1 ∧ pool.alive = 1) = true := by
      decide +kernel
    obtain ⟨pool, hp, ht⟩ := (Option.any_eq_true _ _).mp htest
    obtain ⟨haccepted, hw, hsize, hpulled, hworking, halive⟩ := of_decide_eq_true ht
    refine ⟨pool, hp, haccepted, fun later next hlater => ?_⟩
    have hsame := Pool.sameWork_of_play? (Pool.forall_lost_of_workers hw) (by rw [hw, hsize]; rfl)
      hlater
    exact ⟨hsame.pulled.trans hpulled, hsame.working.trans hworking, hsame.alive.trans halive⟩

end Workshop
end TreePool
