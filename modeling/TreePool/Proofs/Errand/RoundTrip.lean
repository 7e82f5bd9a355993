import TreePool.Proofs.Errand.Report
import TreePool.Proofs.Json.Compact
import TreePool.Proofs.Json.RoundTrip
import TreePool.Proofs.Text.Utf8

/-! # Reports and summaries are read back

What is written of a report or a summary is read back as what it was, so that nothing a file name
may hold is lost or mistaken: `reports_faithful`. It cannot be written only where a path is not
UTF-8.
-/

namespace TreePool

open Json

/-! ## Paths -/

def Path.IsUtf8 (path : Path) : Prop := ∃ text, Text.encode text = path.bytes

theorem Path.isText_iff {path : Path} : path.isText ↔ path.IsUtf8 := by
  unfold Path.isText Path.IsUtf8 Path.text?
  rw [Option.isSome_iff_exists]
  simp only [Text.decode?_eq_some_iff]

def Path.ofJson? : Value → Option Path
  | .string text => some ⟨Text.encode text⟩
  | _ => none

def Path.listOfJson? : Value → Option (List Path)
  | .list items => items.mapM Path.ofJson?
  | _ => none

theorem Path.ofJson?_of_toJson {path : Path} {value : Value} (h : path.toJson = .ok value) :
    Path.ofJson? value = some path := by
  unfold Path.toJson at h
  split at h
  · next text htext =>
    cases h
    exact congrArg (some ∘ Path.mk) (Text.decode?_eq_some_iff.mp htext)
  · cases h

theorem Path.listOfJson?_of_listToJson {paths : List Path} {value : Value}
    (h : Path.listToJson paths = .ok value) : Path.listOfJson? value = some paths := by
  unfold Path.listToJson at h
  cases hm : paths.mapM Path.toJson with
  | error e =>
    rw [hm] at h
    cases h
  | ok items =>
    rw [hm] at h
    cases h
    rw [Path.listOfJson?]
    induction paths generalizing items with
    | nil =>
      cases hm
      rfl
    | cons path paths ih =>
      rw [List.mapM_cons] at hm
      obtain ⟨item, hitem, hm⟩ := bind_eq_ok_iff.mp hm
      obtain ⟨rest, hrest, hm⟩ := bind_eq_ok_iff.mp hm
      cases hm
      rw [List.mapM_cons, Path.ofJson?_of_toJson hitem, ih rest hrest]
      rfl

/-! ## Reports and summaries -/

/-- The report that a JSON object stands for, with its members in the order of the fields. -/
def Report.ofJson? : Value → Option Report
  | .object [("directory", directory), ("from", source), ("to", destination),
      ("level", .integer level), ("success", .boolean success), ("failed", failed),
      ("all", all)] => do
    let directory ← Path.ofJson? directory
    let source ← Path.ofJson? source
    let destination ← Path.ofJson? destination
    let failed ← Path.listOfJson? failed
    let all ← Path.listOfJson? all
    some { directory, source, destination, level, success, failed, all }
  | _ => none

def Summary.ofJson? : Value → Option Summary
  | .object [("total", .integer total), ("succeeded", .integer succeeded), ("failed", failed)] => do
    let failed ← Path.listOfJson? failed
    some { total := total.toNat, succeeded := succeeded.toNat, failed }
  | _ => none

theorem Report.ofJson?_of_toJson {report : Report} {value : Value} (h : report.toJson = .ok value) :
    Report.ofJson? value = some report := by
  obtain ⟨directory, hdirectory, h⟩ := bind_eq_ok_iff.mp h
  obtain ⟨source, hsource, h⟩ := bind_eq_ok_iff.mp h
  obtain ⟨destination, hdestination, h⟩ := bind_eq_ok_iff.mp h
  obtain ⟨failed, hfailed, h⟩ := bind_eq_ok_iff.mp h
  obtain ⟨all, hall, h⟩ := bind_eq_ok_iff.mp h
  cases h
  rw [Report.ofJson?, Path.ofJson?_of_toJson hdirectory, Path.ofJson?_of_toJson hsource,
    Path.ofJson?_of_toJson hdestination, Path.listOfJson?_of_listToJson hfailed,
    Path.listOfJson?_of_listToJson hall]
  rfl

theorem Summary.ofJson?_of_toJson {summary : Summary} {value : Value}
    (h : summary.toJson = .ok value) : Summary.ofJson? value = some summary := by
  obtain ⟨failed, hfailed, h⟩ := bind_eq_ok_iff.mp h
  cases h
  rw [Summary.ofJson?, Path.listOfJson?_of_listToJson hfailed]
  rfl

/-- What is written is read back, and it is refused only for a path that is not UTF-8. Written
compactly it is one line, and written over several lines it is the same value. -/
structure Faithful {α : Type} (written : Except Error Value) (paths : List Path)
    (read : Value → Option α) (a : α) : Prop where
  fails_iff : (∃ e, written = .error e) ↔ ∃ path ∈ paths, ¬path.IsUtf8
  reads_back : ∀ value, written = .ok value →
    (Value.parse value.compact).toOption.bind read = some a
  visible : ∀ value, written = .ok value → ∀ b ∈ Text.encode value.compact, 0x20 ≤ b.toNat
  same_value : ∀ value, written = .ok value → Value.parse value.pretty = Value.parse value.compact

theorem Writes.faithful {α : Type} {written : Except Error Value} {paths : List Path}
    {read : Value → Option α} {a : α} (h : Writes written paths)
    (hread : ∀ value, written = .ok value → read value = some a) :
    Faithful written paths read a where
  fails_iff := by
    have hok := h.exists_iff
    simp only [Path.isText_iff] at hok
    cases written with
    | error e =>
      have hsome : ¬∀ path ∈ paths, path.IsUtf8 := fun hall => nomatch hok.mpr hall
      exact iff_of_true ⟨e, rfl⟩ (by simpa using hsome)
    | ok value =>
      have hall := hok.mp ⟨value, rfl⟩
      exact iff_of_false nofun fun ⟨path, hm, hpath⟩ => hpath (hall path hm)
  reads_back value hvalue := by
    rw [Value.parse_compact]
    exact hread value hvalue
  visible value _ := Text.le_of_mem_encode value.isVisible_compact
  same_value value _ := by rw [Value.parse_pretty, Value.parse_compact]

theorem Faithful.compact_ne {α : Type} {written written' : Except Error Value}
    {paths paths' : List Path} {read : Value → Option α} {a a' : α} {value value' : Value}
    (h : Faithful written paths read a) (h' : Faithful written' paths' read a')
    (hvalue : written = .ok value) (hvalue' : written' = .ok value') (hne : a ≠ a') :
    value.compact ≠ value'.compact := by
  intro heq
  have hread := h.reads_back value hvalue
  rw [heq, h'.reads_back value' hvalue'] at hread
  exact hne (Option.some.inj hread).symm

theorem Errand.faithful_report (errand : Errand) :
    Faithful errand.report.toJson errand.report.paths Report.ofJson? errand.report :=
  errand.report.writes_toJson.faithful fun _ => Report.ofJson?_of_toJson

/-- What is written of the report of an errand, or of the summary of some errands, is faithful, and
different reports are written differently. -/
theorem reports_faithful :
    (∀ errand : Errand,
      Faithful errand.report.toJson errand.report.paths Report.ofJson? errand.report) ∧
    (∀ errands : List Errand, Faithful (Summary.collect errands).toJson
      (Summary.collect errands).failed Summary.ofJson? (Summary.collect errands)) ∧
    (∀ (errand errand' : Errand) (value value' : Value), errand.report.toJson = .ok value →
      errand'.report.toJson = .ok value' → errand.report ≠ errand'.report →
      value.compact ≠ value'.compact) := by
  refine ⟨Errand.faithful_report, ?_, ?_⟩
  · intro errands
    exact (Summary.collect errands).writes_toJson.faithful fun _ => Summary.ofJson?_of_toJson
  · intro errand errand' value value' hvalue hvalue' hne
    exact errand.faithful_report.compact_ne errand'.faithful_report hvalue hvalue' hne

/-- An errand whose source has a quote, a backslash, a line break and a character of three bytes in
its name. -/
def awkward : Errand where
  directory := .ofString "a"
  source := .ofString "a/\"\\\n\u20ac"
  destination := .ofString "b"
  level := 1

theorem reports_faithful_awkward : ∃ value value',
    awkward.report.toJson = .ok value ∧ (awkward.record .success).report.toJson = .ok value' ∧
      awkward.report ≠ (awkward.record .success).report ∧ value.compact ≠ value'.compact := by
  have hne : awkward.report ≠ (awkward.record .success).report := by decide
  exact ⟨_, _, rfl, rfl, hne,
    reports_faithful.2.2 awkward (awkward.record .success) _ _ rfl rfl hne⟩

end TreePool
