import TreePool.Errand.Basic
import TreePool.FileSystem.Operations

/-! # Carrying out an errand

The file of an errand is copied if that can be done, and the errand records the attempt and how it
went.
-/

namespace TreePool
namespace Errand

def copyRecords (errand : Errand) (success : Bool) : List Record :=
  [.entry errand.source, if success then .success else .failure errand.source]

/-- Copies the file of an errand; the file system stays as it is when that cannot be done. -/
def carryOut (errand : Errand) (fs : FileSystem) : FileSystem × List Record :=
  match fs.copy errand.source errand.destination with
  | some copied => (copied, errand.copyRecords true)
  | none => (fs, errand.copyRecords false)

end Errand
end TreePool
