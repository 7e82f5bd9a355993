import TreePool.Tree.Walk
import TreePool.Workshop.Schedule

/-! # Copying a tree

Directories are made as the walk comes to them. Every other item becomes an errand, whose file is
copied right away or by a task of a pool. The copy ends at the first error; what was done or
submitted before it stays done or submitted.
-/

namespace TreePool
namespace Tree

/-- The place of an item in the copy. A single file goes to the destination itself. -/
def target (destination : Path) (item : Item) : Path :=
  if item.depth = 0 ∧ !item.isDirectory then destination
  else destination.join (.relative item.names)

/-- The level of an item, if it is a number that an errand can hold. -/
def level (depth : Nat) : Except Error Int :=
  if depth ≤ int32Max then .ok depth else .error (.tooDeep depth)

structure Progress where
  shop : Workshop
  errands : List ErrandId := []

namespace Progress

def makeDirectories (progress : Progress) (path : Path) : Progress × Option Error :=
  let (files, failure) := progress.shop.files.lay path
  ({ progress with shop := { progress.shop with files } }, failure.map .io)

/-- Copies the file of a new errand right away, or has a pool do it. -/
def carry (progress : Progress) (crew : Option PoolId) (errand : Errand) :
    Progress × Option Error :=
  let id := progress.shop.errands.length
  let shop := progress.shop.addErrand errand
  match crew with
  | none => (⟨shop.copy id, progress.errands ++ [id]⟩, none)
  | some pool =>
    match shop.submit pool (.act (.copy id) .done) with
    | (shop, .ok ()) => (⟨shop, progress.errands ++ [id]⟩, none)
    | (shop, .error e) => ({ progress with shop }, some e)

def errandFor (source destination : Path) (crew : Option PoolId) (item : Item) :
    Except Error Errand := do
  Errand.make source item.path (target destination item) (← level item.depth) crew

def handle (source destination : Path) (crew : Option PoolId) (item : Item)
    (progress : Progress) : Progress × Option Error :=
  if item.isDirectory then progress.makeDirectories (target destination item)
  else
    match errandFor source destination crew item with
    | .ok errand => progress.carry crew errand
    | .error e => (progress, some e)

end Progress

/-- Copies a tree, or a single file, on a pool when one is given. The errands are those made for
the files, in the order of the walk. -/
def copy (shop : Workshop) (source destination : Path) (crew : Option PoolId) :
    Workshop × Except Error (List ErrandId) :=
  let (progress, failure) := walk (fun progress => progress.shop.files)
    (Progress.handle source destination crew) Error.io source (Progress.mk shop [])
  match failure with
  | none => (progress.shop, .ok progress.errands)
  | some e => (progress.shop, .error e)

end Tree
end TreePool
