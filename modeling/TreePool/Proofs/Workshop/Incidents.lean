import TreePool.Proofs.Pool.Destroy
import TreePool.Proofs.Pool.Drain
import TreePool.Proofs.Workshop.Copying

/-! # What marks an outcome

In a workshop pools take steps, new pools and errands are made, and somebody outside records on
errands, copies their files, or releases latches. On the way incidents happen: somebody marks an
outcome, a failure is recorded on an errand, or a worker handles the panic of a task. What moves do
to outcomes, to what errands list, and to the panics of a pool can be told from the incidents alone:
`Workshop.suffers_play?`.
-/

namespace TreePool

inductive Incident where
  /-- Somebody marks the outcome of a pool. -/
  | told (pool : PoolId)
  /-- A failure is recorded on an errand that is bound to the given outcome. -/
  | recorded (errand : ErrandId) (outcome : Option OutcomeId)
  /-- A worker of a pool has handled the panic of a task. -/
  | handled (pool : PoolId) (worker : Nat) (ticket : Ticket)
deriving DecidableEq, Repr

namespace Incident

def pool? : Incident → Option PoolId
  | .told pool => some pool
  | .recorded _ outcome => outcome
  | .handled pool _ _ => some pool

def isHandledIn (pool : PoolId) : Incident → Bool
  | .handled id _ _ => id == pool
  | _ => false

end Incident

namespace Workshop

inductive Move where
  /-- One of the pools takes a step. -/
  | turn (turn : Turn)
  /-- A pool is made whose workers are still to be spawned. -/
  | found (size : Nat) (fragile : Bool)
  /-- An errand is made, and bound to the outcome of a pool or to none. -/
  | add (directory source destination : Path) (level : Int) (outcome : Option OutcomeId)
  | record (errand : ErrandId) (record : Record)
  | copy (errand : ErrandId)
  | release (latch : String)
  /-- Somebody outside changes the file system. -/
  | change (files : FileSystem)

variable {shop between next : Workshop} {pool moved : Pool Effect} {id : PoolId} {move : Move}
variable {moves : List Move} {errand : Errand} {first second : List Incident}

def failures (shop : Workshop) (id : ErrandId) (records : List Record) : List Incident :=
  match shop.errands[id]? with
  | none => []
  | some errand => (records.filter Record.isFailure).map fun _ => .recorded id errand.outcome

def copyFailures (shop : Workshop) (id : ErrandId) : List Incident :=
  match shop.errands[id]? with
  | none => []
  | some errand => shop.failures id (errand.carryOut shop.files).2

def effectIncidents (shop : Workshop) (pool : PoolId) : Effect → List Incident
  | .fail => [.told pool]
  | .record errand record => shop.failures errand [record]
  | .copy errand => shop.copyFailures errand
  | _ => []

/-- The incidents of a step that are the pool's own: somebody outside marks its outcome, or a worker
has handled a panic. -/
def poolIncidents (id : PoolId) (pool : Pool Effect) (action : Action Effect) : List Incident :=
  (if action.isFail then [.told id] else []) ++
    (pool.handled? action).toList.map fun entry => .handled id entry.1 entry.2

def turnIncidents (shop : Workshop) (turn : Turn) : List Incident :=
  match shop.pool? turn.pool with
  | none => []
  | some pool =>
    poolIncidents turn.pool pool turn.action ++
      (pool.effect? turn.action).elim [] (shop.effectIncidents turn.pool)

def moveIncidents (shop : Workshop) : Move → List Incident
  | .turn turn => shop.turnIncidents turn
  | .record errand record => shop.failures errand [record]
  | .copy errand => shop.copyFailures errand
  | .found _ _ | .add _ _ _ _ _ | .release _ | .change _ => []

/-- A workshop after a move, if that is possible. An errand is bound to no outcome but one that
there is. -/
def move? (shop : Workshop) : Move → Option Workshop
  | .turn turn => shop.step? turn
  | .found size fragile => if 1 ≤ size then some (shop.addPool (.start size fragile)) else none
  | .add directory source destination level outcome =>
    match Errand.make directory source destination level outcome with
    | .ok errand =>
      if outcome.all (· < shop.pools.length) then some (shop.addErrand errand) else none
    | .error _ => none
  | .record errand record => some (shop.record errand record)
  | .copy errand => some (shop.copy errand)
  | .release latch => some (shop.release latch)
  | .change files => some { shop with files }

abbrev play? (shop : Workshop) (moves : List Move) : Option Workshop := after? move? shop moves

def incidents (shop : Workshop) : List Move → List Incident
  | [] => []
  | move :: rest => shop.moveIncidents move ++ (shop.move? move).elim [] (·.incidents rest)

/-! ## What incidents do -/

/-- The pools and errands of a workshop after some incidents: an outcome is marked by those that
concern it, each failure that is recorded is listed, and each panic is in the hands of a worker
until it is handled. -/
structure Suffers (shop next : Workshop) (incidents : List Incident) : Prop where
  pools : ∀ id pool, shop.pool? id = some pool → ∃ pool', next.pool? id = some pool' ∧
    pool'.outcome = (pool.outcome && !incidents.any (·.pool? == some id)) ∧
    pool'.panics + pool.workers.countP Phase.isMarking =
      pool.panics + pool'.workers.countP Phase.isMarking +
        incidents.countP (Incident.isHandledIn id)
  errands : ∀ id errand, shop.errands[id]? = some errand → ∃ errand',
    next.errands[id]? = some errand' ∧ errand'.outcome = errand.outcome ∧
    errand'.failed.length = errand.failed.length + incidents.count (.recorded id errand.outcome)

namespace Suffers

theorem of_eq (hp : next.pools = shop.pools) (he : next.errands = shop.errands) :
    Suffers shop next [] := by
  refine ⟨?_, ?_⟩
  · intro id pool hpool
    refine ⟨pool, by rw [pool?, hp]; exact hpool, (Bool.and_true _).symm, rfl⟩
  · intro id errand herrand
    exact ⟨errand, by rw [he]; exact herrand, rfl, rfl⟩

theorem trans (h : Suffers shop between first) (h' : Suffers between next second) :
    Suffers shop next (first ++ second) := by
  refine ⟨?_, ?_⟩
  · intro id pool hpool
    obtain ⟨middle, hmiddle, ho, hp⟩ := h.pools id pool hpool
    obtain ⟨last, hlast, ho', hp'⟩ := h'.pools id middle hmiddle
    refine ⟨last, hlast, ?_, ?_⟩
    · rw [ho', ho, List.any_append, Bool.not_or, Bool.and_assoc]
    · rw [List.countP_append]
      omega
  · intro id errand herrand
    obtain ⟨middle, hmiddle, ho, hf⟩ := h.errands id errand herrand
    obtain ⟨last, hlast, ho', hf'⟩ := h'.errands id middle hmiddle
    refine ⟨last, hlast, ho'.trans ho, ?_⟩
    rw [hf', hf, ho, List.count_append, Nat.add_assoc]

theorem fail (shop : Workshop) (marked : PoolId) :
    Suffers shop (shop.fail marked) [.told marked] := by
  refine ⟨?_, ?_⟩
  · intro id pool hpool
    refine ⟨_, pool?_fail marked hpool, ?_, ?_⟩
    · by_cases hid : marked = id <;> simp [hid, Incident.pool?, Pool.fail]
    · by_cases hid : marked = id <;> simp [hid, Incident.isHandledIn, Pool.fail, Pool.panics]
  · intro id errand herrand
    exact ⟨errand, herrand, rfl, by simp⟩

end Suffers

/-! ## Records -/

theorem failures_of_getElem? {id : ErrandId} (he : shop.errands[id]? = some errand)
    (records : List Record) : shop.failures id records =
      (records.filter Record.isFailure).map fun _ => .recorded id errand.outcome := by
  rw [failures, he]

theorem failures_cons (id : ErrandId) (record : Record) (records : List Record) :
    shop.failures id (record :: records) =
      shop.failures id [record] ++ shop.failures id records := by
  unfold failures
  cases shop.errands[id]? with
  | none => rfl
  | some errand => cases record <;> rfl

theorem failures_congr {errand' : Errand} {id : ErrandId} (he : shop.errands[id]? = some errand)
    (he' : next.errands[id]? = some errand') (ho : errand'.outcome = errand.outcome)
    (records : List Record) : next.failures id records = shop.failures id records := by
  rw [failures_of_getElem? he, failures_of_getElem? he', ho]

theorem failures_singleton {id : ErrandId} (he : shop.errands[id]? = some errand)
    (record : Record) : shop.failures id [record] =
      if record.isFailure then [.recorded id errand.outcome] else [] := by
  rw [failures_of_getElem? he]
  cases record <;> rfl

theorem any_failures {id : ErrandId} (he : shop.errands[id]? = some errand) (record : Record)
    (pool : PoolId) : (shop.failures id [record]).any (·.pool? == some pool) =
      decide (errand.marks record = some pool) := by
  rw [failures_singleton he, Errand.marks]
  cases record.isFailure with
  | true =>
    apply Bool.eq_iff_iff.mpr
    simp [Incident.pool?]
  | false => rfl

theorem countP_isHandledIn_failures (id : ErrandId) (records : List Record) (pool : PoolId) :
    (shop.failures id records).countP (Incident.isHandledIn pool) = 0 := by
  unfold failures
  cases shop.errands[id]? with
  | none => rfl
  | some errand =>
    apply List.countP_eq_zero.mpr
    intro incident hm
    obtain ⟨record, -, rfl⟩ := List.mem_map.mp hm
    exact Bool.false_ne_true

theorem suffers_record (shop : Workshop) (id : ErrandId) (record : Record) :
    Suffers shop (shop.record id record) (shop.failures id [record]) := by
  cases he : shop.errands[id]? with
  | none =>
    simp only [Workshop.record, failures, he]
    exact .of_eq rfl rfl
  | some errand =>
    refine ⟨?_, ?_⟩
    · intro other pool hpool
      refine ⟨_, pool?_record he record hpool, ?_, ?_⟩
      · rw [any_failures he]
        by_cases hm : errand.marks record = some other <;> simp [hm, Pool.fail]
      · rw [countP_isHandledIn_failures]
        by_cases hm : errand.marks record = some other <;> simp [hm, Pool.fail, Pool.panics]
    · intro other errand' he'
      rw [errands_record shop he record]
      by_cases hid : id = other
      · subst hid
        cases he.symm.trans he'
        refine ⟨_, List.getElem?_set_self (List.getElem?_eq_some_iff.mp he).1, ?_, ?_⟩
        · cases record <;> rfl
        · rw [failures_singleton he]
          cases record <;> simp [Record.isFailure]
      · refine ⟨errand', by rw [List.getElem?_set_ne hid, he'], rfl, ?_⟩
        rw [failures_singleton he]
        split_ifs <;> simp [hid]

theorem suffers_recordAll (shop : Workshop) (id : ErrandId) (records : List Record) :
    Suffers shop (shop.recordAll id records) (shop.failures id records) := by
  induction records generalizing shop with
  | nil =>
    have hnone : shop.failures id [] = [] := by
      unfold failures
      cases shop.errands[id]? <;> rfl
    rw [hnone]
    exact .of_eq rfl rfl
  | cons record records ih =>
    have hrest : (shop.record id record).failures id records = shop.failures id records := by
      cases he : shop.errands[id]? with
      | none => simp only [Workshop.record, he]
      | some errand =>
        have hlt := (List.getElem?_eq_some_iff.mp he).1
        have he' : (shop.record id record).errands[id]? = some (errand.record record) := by
          rw [errands_record shop he, List.getElem?_set_self hlt]
        exact failures_congr he he' (by cases record <;> rfl) records
    rw [failures_cons, ← hrest]
    exact (suffers_record shop id record).trans (ih _)

theorem suffers_copy (shop : Workshop) (id : ErrandId) :
    Suffers shop (shop.copy id) (shop.copyFailures id) := by
  unfold Workshop.copy copyFailures
  cases he : shop.errands[id]? with
  | none => exact .of_eq rfl rfl
  | some errand =>
    have hfiles : Suffers shop { shop with files := (errand.carryOut shop.files).1 } [] :=
      .of_eq rfl rfl
    exact hfiles.trans (suffers_recordAll _ id (errand.carryOut shop.files).2)

theorem suffers_perform (shop : Workshop) (pool : PoolId) (effect : Effect) :
    Suffers shop (shop.perform pool effect) (shop.effectIncidents pool effect) := by
  cases effect with
  | fail => exact .fail shop pool
  | record id record => exact suffers_record shop id record
  | copy id => exact suffers_copy shop id
  | begin | finish | await => exact .of_eq rfl rfl

/-! ## Moves -/

theorem suffers_setPool {action : Action Effect} (hp : shop.pool? id = some pool)
    (hs : pool.step? action = some moved) :
    Suffers shop (shop.setPool id moved) (poolIncidents id pool action) := by
  have hany (other : PoolId) : (poolIncidents id pool action).any (·.pool? == some other) =
      ((action.isFail || (pool.handled? action).isSome) && id == other) := by
    unfold poolIncidents
    cases action.isFail <;> cases pool.handled? action <;> simp [Incident.pool?]
  have hcount (other : PoolId) :
      (poolIncidents id pool action).countP (Incident.isHandledIn other) =
        ((pool.handled? action).isSome && id == other).toNat := by
    unfold poolIncidents
    cases action.isFail <;> cases pool.handled? action <;> cases hid : id == other <;>
      simp [Incident.isHandledIn, hid]
  refine ⟨?_, ?_⟩
  · intro other pool' hpool'
    by_cases hid : id = other
    · subst hid
      cases hp.symm.trans hpool'
      refine ⟨moved, pool?_setPool moved hp, ?_, ?_⟩
      · rw [hany, beq_self_eq_true, Bool.and_true]
        exact Pool.outcome_of_step? hs
      · rw [hcount, beq_self_eq_true, Bool.and_true]
        exact Pool.panics_add_of_step? hs
    · have hne : (id == other) = false := beq_false_of_ne hid
      refine ⟨pool', ?_, ?_, ?_⟩
      · rw [setPool, pool?, List.getElem?_set_ne hid]
        exact hpool'
      · rw [hany, hne, Bool.and_false, Bool.not_false, Bool.and_true]
      · rw [hcount, hne, Bool.and_false, Bool.toNat_false, Nat.add_zero]
  · intro errand' errand he
    refine ⟨errand, he, rfl, ?_⟩
    have hnone : Incident.recorded errand' errand.outcome ∉ poolIncidents id pool action := by
      unfold poolIncidents
      cases action.isFail <;> cases pool.handled? action <;> simp
    rw [List.count_eq_zero.mpr hnone, Nat.add_zero]

theorem suffers_step? {turn : Turn} (hs : shop.step? turn = some next) :
    Suffers shop next (shop.turnIncidents turn) := by
  obtain ⟨pool, hp, hs⟩ := Option.bind_eq_some_iff.mp hs
  obtain ⟨moved, hmoved, hs⟩ := Option.bind_eq_some_iff.mp hs
  have hmove := suffers_setPool hp hmoved
  unfold turnIncidents
  simp only [hp]
  cases he : pool.effect? turn.action with
  | none =>
    simp only [he] at hs
    cases hs
    simpa using hmove
  | some effect =>
    simp only [he] at hs
    split_ifs at hs
    cases hs
    exact hmove.trans (suffers_perform (shop.setPool turn.pool moved) turn.pool effect)

theorem suffers_move? (hm : shop.move? move = some next) :
    Suffers shop next (shop.moveIncidents move) := by
  cases move with
  | turn turn => exact suffers_step? hm
  | found size fragile =>
    simp only [move?] at hm
    split_ifs at hm
    cases hm
    refine ⟨?_, ?_⟩
    · intro id pool hpool
      have hlt := (List.getElem?_eq_some_iff.mp hpool).1
      refine ⟨pool, ?_, (Bool.and_true _).symm, rfl⟩
      rw [addPool, pool?, List.getElem?_append_left hlt]
      exact hpool
    · intro id errand herrand
      exact ⟨errand, herrand, rfl, rfl⟩
  | add directory source destination level outcome =>
    simp only [move?] at hm
    split at hm
    · split_ifs at hm
      cases hm
      refine ⟨?_, ?_⟩
      · intro id pool hpool
        exact ⟨pool, hpool, (Bool.and_true _).symm, rfl⟩
      · intro id errand herrand
        have hlt := (List.getElem?_eq_some_iff.mp herrand).1
        refine ⟨errand, ?_, rfl, rfl⟩
        rw [addErrand, List.getElem?_append_left hlt, herrand]
    · cases hm
  | record id record =>
    cases hm
    exact suffers_record shop id record
  | copy id =>
    cases hm
    exact suffers_copy shop id
  | release | change =>
    cases hm
    exact .of_eq rfl rfl

theorem incidents_cons (hm : shop.move? move = some next) :
    shop.incidents (move :: moves) = shop.moveIncidents move ++ next.incidents moves := by
  rw [incidents, hm]
  rfl

theorem suffers_play? (hp : shop.play? moves = some next) :
    Suffers shop next (shop.incidents moves) := by
  induction moves generalizing shop with
  | nil =>
    cases Option.some.inj hp
    exact .of_eq rfl rfl
  | cons move moves ih =>
    obtain ⟨between, hm, hrest⟩ := after?_cons_eq_some_iff.mp hp
    rw [incidents_cons hm]
    exact (suffers_move? hm).trans (ih hrest)

end Workshop
end TreePool
