import TreePool.FileSystem.Operations
import Mathlib.Logic.Function.Basic

/-! # Charts

A chart says what kind of thing stands at each place. What a change does to a file system is said
by what it does to its chart: to put something without contents at a place that is free, or where a
file or a link stands, changes the chart at that place and nowhere else.
-/

namespace TreePool

abbrev Chart := Location → Option Kind

namespace FileSystem

variable {fs : FileSystem} {name : Name} {location parent : Location} {kind : Kind} {node : Node}

@[simp] theorem kindAt_nil (fs : FileSystem) : fs.kindAt [] = some .directory := rfl

theorem kindAt_of_node? (h : fs.node? location = some node) : fs.kindAt location = some node.kind :=
  by simp [kindAt, h]

theorem exists_node_of_kindAt (h : fs.kindAt location = some kind) :
    ∃ node, fs.node? location = some node ∧ node.kind = kind := by
  simpa [kindAt] using h

theorem exists_entries (h : fs.kindAt location = some .directory) :
    ∃ entries, fs.node? location = some (.directory entries) := by
  obtain ⟨node, hn, hk⟩ := exists_node_of_kindAt h
  cases node with
  | directory entries => exact ⟨entries, hn⟩
  | file | link => cases hk

theorem kindAt_child {entries : List (Name × Node)}
    (h : fs.node? parent = some (.directory entries)) (name : Name) :
    fs.kindAt (name :: parent) = (entries.lookup name).map Node.kind := by
  simp [kindAt, h, Node.child?, Node.entries]

theorem kindAt_parent (h : fs.kindAt (name :: parent) ≠ none) :
    fs.kindAt parent = some .directory := by
  obtain ⟨kind, hk⟩ := Option.ne_none_iff_exists'.mp h
  obtain ⟨node, hn, -⟩ := exists_node_of_kindAt hk
  obtain ⟨siblings, hp, -⟩ := exists_siblings hn
  exact kindAt_of_node? hp

theorem kindAt_eq_none_of_parent (h : fs.kindAt parent ≠ some .directory) :
    fs.kindAt (name :: parent) = none :=
  Classical.not_not.mp (mt kindAt_parent h)

theorem kindAt_append_eq_none (h : fs.kindAt location ≠ some .directory) {below : List Name}
    (hb : below ≠ []) : fs.kindAt (below ++ location) = none := by
  induction below with
  | nil => exact absurd rfl hb
  | cons name below ih =>
    refine kindAt_eq_none_of_parent ?_
    by_cases hnil : below = []
    · simpa [hnil] using h
    · simp [ih hnil]

theorem kindAt_eq_directory_of_suffix {other : Location} (h : fs.kindAt other ≠ none)
    (hs : location <:+ other) (hne : location ≠ other) : fs.kindAt location = some .directory := by
  obtain ⟨below, rfl⟩ := hs
  by_contra hd
  exact h (kindAt_append_eq_none hd fun hb => hne (by simp [hb]))

theorem kindAt_ne_none_of_suffix {other : Location} (h : fs.kindAt other ≠ none)
    (hs : location <:+ other) : fs.kindAt location ≠ none := by
  by_cases hne : location = other
  · rwa [hne]
  · simp [kindAt_eq_directory_of_suffix h hs hne]

/-- To put something without contents in a directory, not over another directory, changes the chart
at that place alone. -/
theorem kindAt_put (hd : fs.kindAt parent = some .directory)
    (hf : fs.kindAt (name :: parent) ≠ some .directory) (hn : node.entries = []) :
    (fs.put parent name node).kindAt =
      Function.update fs.kindAt (name :: parent) (some node.kind) := by
  obtain ⟨entries, he⟩ := exists_entries hd
  have hput := node?_put he name node
  funext other
  by_cases hs : name :: parent <:+ other
  · obtain ⟨below, rfl⟩ := hs
    rcases List.eq_nil_or_concat below with rfl | ⟨front, last, rfl⟩
    · simpa using kindAt_of_node? hput
    · -- There is nothing inside what was put, nor was there inside what it replaces.
      have hnew : (fs.put parent name node).kindAt (last :: name :: parent) = none := by
        simp [kindAt, hput, Node.child?, hn]
      have hgone : (fs.put parent name node).kindAt (front ++ last :: name :: parent) = none := by
        by_cases hfront : front = []
        · simpa [hfront] using hnew
        · exact kindAt_append_eq_none (by simp [hnew]) hfront
      have hold : fs.kindAt ((front ++ [last]) ++ name :: parent) = none :=
        kindAt_append_eq_none hf (by simp)
      rw [List.concat_eq_append, List.append_assoc, List.singleton_append, hgone,
        Function.update_of_ne (fun e => by have := congrArg List.length e; simp at this; omega)]
      simpa using hold.symm
  · rw [kindAt_put_of_not_suffix _ _ _ _ hs, Function.update_of_ne]
    rintro rfl
    exact hs List.suffix_rfl

end FileSystem
end TreePool
