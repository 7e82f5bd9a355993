import TreePool.Proofs.Tree.Guarded

/-! # Copies of single files under permission bits

Where a source is no directory, or the directory for the root of a tree cannot be made, a copy comes
to the handling of a single find.
-/

namespace TreePool
namespace Tree

open FileSystem

variable {fs : FileSystem} {source destination : Path} {item : Item} {find : Find}
variable {shop : Guarded Workshop}

/-- The item that a walk along a single file comes across, less what the file holds. -/
def fileItem (source : Path) : Item := ⟨source, [], .file []⟩

theorem start_of_regular? {found : Location × Bytes} (hf : fs.regular? source = some found) :
    ∃ item, start fs source = .ok item ∧ below fs item = .ok [] ∧ item.path = source ∧
      item.names = [] ∧ item.isDirectory = false := by
  obtain ⟨origin, content⟩ := found
  have hfind := regular?_eq_some_iff.mp hf
  obtain ⟨hr, -, tour, hl⟩ := leads_of_find hfind
  obtain ⟨tour', location, kind, hl'⟩ := Trail.exists_unfollowed hl
  obtain ⟨node, hunfollowed, -, rfl⟩ := find_of_leads hr hl'
  refine ⟨⟨source, [], node.kind⟩, by rw [start, hunfollowed], ?_, rfl, rfl, ?_⟩
  all_goals
    cases node with
    | directory => cases (Trail.unique (Trail.followed hl' (by simp [Node.kind])) hl).2
    | file => rfl
    | link => simp [below, Node.kind, Item.depth, Item.isDirectory, hfind, Node.isDirectory]

/-- Of a single file, only the paths count. -/
theorem errand_of_single (destination : Path) (hpath : item.path = source)
    (hnames : item.names = []) (hd : item.isDirectory = false) :
    errandOf source destination none item = errandOf source destination none (fileItem source) ∧
      refusalOf? source destination item = refusalOf? source destination (fileItem source) := by
  have htarget : target destination item = target destination (fileItem source) := by
    rw [target, target, if_pos ⟨by simp [Item.depth, hnames], by simp [hd]⟩, if_pos ⟨rfl, rfl⟩]
  simp [errandOf, refusalOf?, Progress.errandFor, hpath, hnames, htarget, Item.depth, fileItem]

theorem copyGuarded_of_find (hplan : planFrom shop.state.files source = [find])
    (destination : Path) :
    let result := attend (handleGuarded source destination) Error.io find
      ⟨.mk shop.state [], shop.rights⟩
    copyGuarded shop source destination =
      (⟨result.1.state.shop, result.1.rights⟩,
        result.2.elim (.ok result.1.state.errands) .error) := by
  intro result
  have hvisit : visitEach (attend (handleGuarded source destination) Error.io) [find]
      ⟨.mk shop.state [], shop.rights⟩ = result := by
    rw [visitEach]
    rcases hr : attend (handleGuarded source destination) Error.io find
      ⟨.mk shop.state [], shop.rights⟩ with ⟨next, _ | e⟩
    all_goals exact hr.symm
  have hwalk : walk (fun progress => progress.state.shop.files) (handleGuarded source destination)
      Error.io source (⟨.mk shop.state [], shop.rights⟩ : Guarded Progress) = result := by
    rw [← hvisit, ← hplan]
    refine walk_eq_visitEach (I := fun _ _ => True) (coarse_handleGuarded source destination)
      (fun _ _ _ _ _ _ _ => trivial) (fun done item state hpre hne _ => absurd ?_ hne) rfl trivial
    have hlength := (hplan ▸ hpre).length_le
    simpa using hlength
  rw [copyGuarded_eq_walk, hwalk]

/-- The copy of a single file is one errand, unless a path is too long. -/
theorem copyGuarded_of_single (hplan : planFrom shop.state.files source = [.ok item])
    (hpath : item.path = source) (hnames : item.names = []) (hd : item.isDirectory = false)
    (destination : Path) :
    let result := copyGuarded shop source destination
    let copied := Guarded.copy ⟨shop.state.files, shop.rights⟩ source destination
    match refusalOf? source destination (fileItem source) with
    | some e => result = (shop, .error e)
    | none => result.1.state.files = copied.1.state ∧ result.1.rights = copied.1.rights ∧
        result.2.map result.1.state.errandsAt =
          .ok [(errandOf source destination none (fileItem source)).attempted copied.2] := by
  obtain ⟨herrand, hrefusal⟩ := errand_of_single destination hpath hnames hd
  have htarget : target destination (fileItem source) = destination := if_pos ⟨rfl, rfl⟩
  have hresult := copyGuarded_of_find hplan destination
  rw [attend, handleGuarded_file hd, hrefusal, herrand] at hresult
  cases hr : refusalOf? source destination (fileItem source) with
  | some e =>
    rw [hr] at hresult
    exact hresult
  | none =>
    rw [hr] at hresult
    obtain ⟨hfiles, hrights, herrands, hids⟩ := carryGuarded_eq ⟨.mk shop.state [], shop.rights⟩
      (errandOf source destination none (fileItem source))
    rw [source_errandOf, destination_errandOf, htarget] at hfiles hrights herrands
    intro result copied
    simp only [result]
    rw [hresult]
    refine ⟨hfiles, hrights, ?_⟩
    simp only [Option.elim_none, Except.map, hids]
    simp [Workshop.errandsAt, herrands, copied]
    rfl

theorem planFrom_of_below (hs : start fs source = .ok item) (hb : below fs item = .ok []) :
    planFrom fs source = [.ok item] := by
  have hlimit : pathLimit = 4095 + 1 := rfl
  rw [planFrom, hs, hlimit, plan, hb]
  rfl

theorem exists_single_of_copy {fs : Guarded FileSystem}
    (hh : fs.state.kindAt fs.state.home ≠ none) (hplan : planFrom fs.state source = [.ok item])
    (hpath : item.path = source) (hnames : item.names = []) (hd : item.isDirectory = false)
    (destination : Path) :
    ∃ item', planFrom (fs.copy source destination).1.state source = [.ok item'] ∧
      item'.path = source ∧ item'.names = [] ∧ item'.isDirectory = false := by
  cases hf : fs.state.regular? source with
  | none =>
    rw [Guarded.copy_of_regular?_eq_none hf]
    exact ⟨item, hplan, hpath, hnames, hd⟩
  | some found =>
    obtain ⟨held, -, hf'⟩ := (Guarded.extends_copy fs source destination).regular? hh hf
    obtain ⟨item', hs, hb, hrest⟩ := start_of_regular? hf'
    exact ⟨item', planFrom_of_below hs hb, hrest⟩

theorem copyGuarded_of_fails (hs : start shop.state.files source = .ok (rootItem source))
    {left : FileSystem} {error : IoError}
    (hl : shop.state.files.lay (target destination (rootItem source)) = (left, some error)) :
    copyGuarded shop source destination =
      (⟨{ shop.state with files := left }, shop.rights⟩, .error (.io error)) := by
  have hroot : handleGuarded source destination (rootItem source)
      ⟨.mk shop.state [], shop.rights⟩ =
        (⟨.mk { shop.state with files := left } [], shop.rights⟩, some (.io error)) := by
    rw [handleGuarded_directory rfl, Progress.makeDirectories, hl]
    rfl
  have hb : below shop.state.files (rootItem source) =
      .ok (entriesOf shop.state.files (rootItem source)) := rfl
  have hwalk : walk (fun progress => progress.state.shop.files) (handleGuarded source destination)
      Error.io source (⟨.mk shop.state [], shop.rights⟩ : Guarded Progress) =
        (⟨.mk { shop.state with files := left } [], shop.rights⟩, some (.io error)) := by
    refine walk_of_handle_error ?_ hb hroot
    exact hs
  rw [copyGuarded_eq_walk, hwalk]
  rfl

end Tree
end TreePool
