import TreePool.FileSystem.Permissions
import TreePool.Tree.Copy

/-! # Copying a tree under permission bits

The copy of a tree without a pool, by a process for which the permission bits of files hold. The
directories and the errands are those of `Tree.copy`; only the copy of a single file differs.
-/

namespace TreePool
namespace Tree

/-- Copies the file of a new errand right away, as far as permission bits allow. -/
def carryGuarded (progress : Guarded Progress) (errand : Errand) : Guarded Progress :=
  let shop := progress.state.shop
  let id := shop.errands.length
  let (after, success) :=
    Guarded.copy ⟨shop.files, progress.rights⟩ errand.source errand.destination
  let copied := { shop.addErrand errand with files := after.state }
  ⟨⟨copied.recordAll id (errand.copyRecords success), progress.state.errands ++ [id]⟩, after.rights⟩

def handleGuarded (source destination : Path) (item : Item) (progress : Guarded Progress) :
    Guarded Progress × Option Error :=
  if item.isDirectory then
    let (made, failure) := progress.state.makeDirectories (target destination item)
    (⟨made, progress.rights⟩, failure)
  else
    match Progress.errandFor source destination none item with
    | .ok errand => (carryGuarded progress errand, none)
    | .error e => (progress, some e)

/-- Copies a tree, or a single file, as far as permission bits allow. -/
def copyGuarded (shop : Guarded Workshop) (source destination : Path) :
    Guarded Workshop × Except Error (List ErrandId) :=
  let (progress, failure) := walk (fun progress => progress.state.shop.files)
    (handleGuarded source destination) Error.io source
    (⟨Progress.mk shop.state [], shop.rights⟩ : Guarded Progress)
  let after : Guarded Workshop := ⟨progress.state.shop, progress.rights⟩
  match failure with
  | none => (after, .ok progress.state.errands)
  | some e => (after, .error e)

end Tree
end TreePool
