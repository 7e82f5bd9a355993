import TreePool.Errand.Copy
import TreePool.Pool.Step

/-! # Workshops

A workshop is all that task bodies can touch: the pools, the errands bound to their outcomes, the
file system, and named latches on which a body may wait. A step of a workshop is a step of one of
its pools together with what that step does to the rest.
-/

namespace TreePool

abbrev PoolId := Nat

/-- What a task body does outside its pool, all at one moment. -/
inductive Effect where
  /-- Puts a mark on the list of what has begun. -/
  | begin (mark : Int)
  /-- Puts a mark on the list of what has ended. -/
  | finish (mark : Int)
  /-- Goes on only when the latch has been released. -/
  | await (latch : String)
  /-- Marks the outcome of the body's pool. -/
  | fail
  | record (errand : ErrandId) (record : Record)
  /-- Copies the file of an errand and records how that went. -/
  | copy (errand : ErrandId)
deriving DecidableEq, Repr

structure Workshop where
  files : FileSystem := ⟨[], []⟩
  pools : List (Pool Effect) := []
  errands : List Errand := []
  released : List String := []
  begun : List (PoolId × Int) := []
  finished : List (PoolId × Int) := []

namespace Workshop

def pool? (shop : Workshop) (id : PoolId) : Option (Pool Effect) := shop.pools[id]?

def setPool (shop : Workshop) (id : PoolId) (pool : Pool Effect) : Workshop :=
  { shop with pools := shop.pools.set id pool }

def addPool (shop : Workshop) (pool : Pool Effect) : Workshop :=
  { shop with pools := shop.pools ++ [pool] }

def addErrand (shop : Workshop) (errand : Errand) : Workshop :=
  { shop with errands := shop.errands ++ [errand] }

/-- Marks the outcome of a pool. -/
def fail (shop : Workshop) (id : PoolId) : Workshop :=
  { shop with pools := shop.pools.modify id Pool.fail }

def release (shop : Workshop) (latch : String) : Workshop :=
  { shop with released := latch :: shop.released }

/-- Records something on an errand; a failure also marks the outcome that it is bound to. -/
def record (shop : Workshop) (id : ErrandId) (record : Record) : Workshop :=
  match shop.errands[id]? with
  | none => shop
  | some errand =>
    let recorded := { shop with errands := shop.errands.set id (errand.record record) }
    match errand.marks record with
    | some outcome => recorded.fail outcome
    | none => recorded

def recordAll (shop : Workshop) (id : ErrandId) (records : List Record) : Workshop :=
  records.foldl (fun shop item => shop.record id item) shop

def copy (shop : Workshop) (id : ErrandId) : Workshop :=
  match shop.errands[id]? with
  | none => shop
  | some errand =>
    let (files, records) := errand.carryOut shop.files
    { shop with files }.recordAll id records

/-- Whether an effect can happen now. -/
def allows (shop : Workshop) : Effect → Bool
  | .await latch => shop.released.contains latch
  | _ => true

/-- What an effect of a body of the given pool does. -/
def perform (shop : Workshop) (id : PoolId) : Effect → Workshop
  | .begin mark => { shop with begun := shop.begun ++ [(id, mark)] }
  | .finish mark => { shop with finished := shop.finished ++ [(id, mark)] }
  | .await _ => shop
  | .fail => shop.fail id
  | .record errand record => shop.record errand record
  | .copy errand => shop.copy errand

/-- A step of one of the pools. -/
structure Turn where
  pool : PoolId
  action : Action Effect
deriving DecidableEq, Repr

def step? (shop : Workshop) (turn : Turn) : Option Workshop := do
  let pool ← shop.pool? turn.pool
  let next ← pool.step? turn.action
  let moved := shop.setPool turn.pool next
  match pool.effect? turn.action with
  | none => some moved
  | some effect => if shop.allows effect then some (moved.perform turn.pool effect) else none

def errandsAt (shop : Workshop) (ids : List ErrandId) : List Errand :=
  ids.filterMap (shop.errands[·]?)

def marksOf (id : PoolId) (marks : List (PoolId × Int)) : List Int :=
  (marks.filter (·.1 = id)).map (·.2)

end Workshop

end TreePool
