import TreePool.Errand.Report
import Mathlib.Data.List.Count

/-! # What reports and summaries tell

A summary counts its errands, those that succeeded, and all failures. When each errand either
succeeded or recorded one failure, nothing is counted twice, and a summary speaks of success exactly
when all errands do. A report or a summary can be written exactly when all paths in it are text.
-/

namespace TreePool

/-! ## Counting -/

/-- Whether an errand tells either of a success or of one failure. -/
def Errand.IsDecided (errand : Errand) : Prop :=
  errand.failed.length = if errand.success then 0 else 1

namespace Summary

variable {errands : List Errand}

theorem foldl_add (summary : Summary) (errands : List Errand) :
    errands.foldl add summary =
      { total := summary.total + errands.length
        succeeded := summary.succeeded + errands.countP Errand.success
        failed := summary.failed ++ errands.flatMap Errand.failed } := by
  induction errands generalizing summary with
  | nil => simp
  | cons errand errands ih =>
    rw [List.foldl_cons, ih]
    cases hs : errand.success <;> simp [add, hs] <;> omega

theorem collect_eq (errands : List Errand) :
    collect errands =
      { total := errands.length
        succeeded := errands.countP Errand.success
        failed := errands.flatMap Errand.failed } := by
  rw [collect, foldl_add]
  simp

theorem total_eq (h : ∀ errand ∈ errands, errand.IsDecided) :
    (collect errands).total = (collect errands).succeeded + (collect errands).failed.length := by
  rw [collect_eq]
  dsimp only
  induction errands with
  | nil => rfl
  | cons errand errands ih =>
    have hfirst := h errand List.mem_cons_self
    have hrest := ih fun other hm => h other (List.mem_cons_of_mem _ hm)
    rw [Errand.IsDecided] at hfirst
    rw [List.length_cons, List.flatMap_cons, List.length_append, hfirst, hrest, List.countP_cons]
    cases errand.success <;> simp <;> omega

theorem isSuccess_eq (h : ∀ errand ∈ errands, errand.IsDecided) :
    (collect errands).isSuccess = errands.all Errand.success := by
  have htotal := total_eq h
  rw [collect_eq] at htotal ⊢
  apply Bool.eq_iff_iff.mpr
  rw [isSuccess, Bool.and_eq_true, List.isEmpty_iff, beq_iff_eq, List.all_eq_true,
    ← List.countP_eq_length]
  dsimp only at htotal ⊢
  constructor
  · exact fun hsuccess => hsuccess.2
  · intro hcount
    refine ⟨List.length_eq_zero_iff.mp ?_, hcount⟩
    omega

end Summary

/-! ## Writing -/

def Path.isText (path : Path) : Bool := path.text?.isSome

/-- What is written with the given paths: something if they all are text, and else the error that
one is not. -/
def Writes {α : Type} (result : Except Error α) (paths : List Path) : Prop :=
  if paths.all Path.isText then ∃ value, result = .ok value else result = .error .pathNotText

namespace Writes

variable {α β : Type} {result : Except Error α} {f : α → Except Error β} {paths more : List Path}

theorem ok (value : α) : Writes (.ok value) [] := ⟨value, rfl⟩

/-- The first path that is no text decides. -/
theorem bind (h : Writes result paths) (hf : ∀ value, Writes (f value) more) :
    Writes (result >>= f) (paths ++ more) := by
  unfold Writes at h ⊢
  rw [List.all_append]
  cases hpaths : paths.all Path.isText with
  | true =>
    rw [hpaths, if_pos rfl] at h
    obtain ⟨value, rfl⟩ := h
    rw [Bool.true_and]
    exact hf value
  | false =>
    rw [hpaths, if_neg Bool.false_ne_true] at h
    rw [h]
    rfl

theorem map (g : α → β) (h : Writes result paths) : Writes (result.map g) paths := by
  have hbind := h.bind fun value => Writes.ok (g value)
  rw [List.append_nil] at hbind
  cases result <;> exact hbind

theorem exists_iff (h : Writes result paths) :
    (∃ value, result = .ok value) ↔ ∀ path ∈ paths, path.isText := by
  rw [← List.all_eq_true]
  unfold Writes at h
  split_ifs at h with hpaths
  · exact iff_of_true h hpaths
  · apply iff_of_false _ hpaths
    rintro ⟨value, rfl⟩
    cases h

theorem eq_error (h : Writes result paths) (hp : ∃ path ∈ paths, path.isText = false) :
    result = .error .pathNotText := by
  obtain ⟨path, hm, hpath⟩ := hp
  unfold Writes at h
  rwa [if_neg] at h
  rw [List.all_eq_true]
  intro hall
  rw [hall path hm] at hpath
  cases hpath

end Writes

theorem Path.writes_toJson (path : Path) : Writes path.toJson [path] := by
  unfold Path.toJson Writes
  rw [List.all_cons, List.all_nil, Bool.and_true, Path.isText]
  cases path.text? with
  | none => rfl
  | some text => exact ⟨_, rfl⟩

theorem Path.writes_listToJson (paths : List Path) : Writes (Path.listToJson paths) paths := by
  apply Writes.map
  induction paths with
  | nil => exact .ok []
  | cons path paths ih =>
    rw [List.mapM_cons]
    apply path.writes_toJson.bind
    intro value
    have hrest := ih.bind fun values => Writes.ok (value :: values)
    rwa [List.append_nil] at hrest

def Report.paths (report : Report) : List Path :=
  report.directory :: report.source :: report.destination :: (report.failed ++ report.all)

theorem Report.writes_toJson (report : Report) : Writes report.toJson report.paths := by
  have hpaths : report.paths = [report.directory] ++ ([report.source] ++
      ([report.destination] ++ (report.failed ++ (report.all ++ [])))) := by
    simp [Report.paths]
  rw [hpaths]
  apply report.directory.writes_toJson.bind
  intro directory
  apply report.source.writes_toJson.bind
  intro source
  apply report.destination.writes_toJson.bind
  intro destination
  apply (Path.writes_listToJson report.failed).bind
  intro failed
  apply (Path.writes_listToJson report.all).bind
  intro all
  exact .ok _

theorem Summary.writes_toJson (summary : Summary) : Writes summary.toJson summary.failed := by
  rw [← List.append_nil summary.failed]
  apply (Path.writes_listToJson summary.failed).bind
  intro failed
  exact .ok _

end TreePool
