import TreePool.Proofs.FileSystem.Order
import TreePool.Proofs.Tree.Walk
import TreePool.Proofs.Workshop.Copying

/-! # Faithful copies

A successful errand leaves at its destination what its source held when the copy began, unless its
source was written to before, by another errand or by itself, or its destination was written to
later. A file that is copied onto itself is lost, although its errand counts as a success.
-/

namespace TreePool

namespace Workshop

def filled? (shop : Workshop) (id : ErrandId) : Option Location := do
  let errand ← shop.errands[id]?
  if errand.success then (shop.files.regular? errand.destination).map Prod.fst else none

/-- A successful errand, the destination of which leads to a file at a place. -/
def Fills (shop : Workshop) (id : ErrandId) (place : Location) : Prop :=
  ∃ errand content, shop.errands[id]? = some errand ∧ errand.success = true ∧
    shop.files.regular? errand.destination = some (place, content)

theorem filled?_eq_some_iff {shop : Workshop} {id : ErrandId} {place : Location} :
    shop.filled? id = some place ↔ shop.Fills id place := by
  unfold filled? Fills
  cases shop.errands[id]? with
  | none => simp
  | some errand => cases hs : errand.success <;> simp [hs]

theorem fills_iff {shop shop' : Workshop} {id : ErrandId} {place : Location}
    (hh : shop.files.kindAt shop.files.home ≠ none)
    (hx : FileSystem.Extends shop.files shop'.files) (he : shop'.errands[id]? = shop.errands[id]?)
    (hfull : ∀ errand, shop.errands[id]? = some errand → errand.success = true →
      ∃ place, shop.Fills id place) :
    shop'.Fills id place ↔ shop.Fills id place := by
  constructor
  · rintro ⟨errand, content, hid, hs, hf⟩
    rw [he] at hid
    obtain ⟨place', errand', content', hid', hs', hf'⟩ := hfull errand hid hs
    obtain rfl : errand = errand' := Option.some.inj (hid.symm.trans hid')
    obtain ⟨held, -, hheld⟩ := hx.regular? hh hf'
    rw [hf] at hheld
    cases hheld
    exact ⟨errand, content', hid, hs, hf'⟩
  · rintro ⟨errand, content, hid, hs, hf⟩
    obtain ⟨held, -, hheld⟩ := hx.regular? hh hf
    exact ⟨errand, held, he.trans hid, hs, hheld⟩

end Workshop

namespace Tree

open FileSystem

/-- What holds of a copy in progress that began with a file system: successful errands have filled
their places, files that none of them filled are as they were, and each errand left what its source
held unless another one interfered. -/
structure Faithful (fs : FileSystem) (progress : Progress) : Prop where
  home : fs.kindAt fs.home ≠ none
  extended : Extends fs progress.shop.files
  known : ∀ id ∈ progress.errands, id < progress.shop.errands.length
  full : ∀ id ∈ progress.errands, ∀ errand, progress.shop.errands[id]? = some errand →
    errand.success = true → ∃ place, progress.shop.Fills id place
  spared : ∀ place content, fs.kindAt place = some (.file content) →
    (∀ id ∈ progress.errands, ¬ progress.shop.Fills id place) →
    progress.shop.files.kindAt place = some (.file content)
  kept : ∀ id ∈ progress.errands, ∀ errand origin content place held,
    progress.shop.errands[id]? = some errand → errand.success = true →
    fs.regular? errand.source = some (origin, content) →
    (∀ other ∈ progress.errands, other ≤ id → ¬ progress.shop.Fills other origin) →
    progress.shop.files.regular? errand.destination = some (place, held) →
    (∀ other ∈ progress.errands, id < other → ¬ progress.shop.Fills other place) →
    held = content

namespace Faithful

variable {fs : FileSystem} {progress : Progress} {shop : Workshop} {errand : Errand}

theorem start (hh : shop.files.kindAt shop.files.home ≠ none) :
    Faithful shop.files (Progress.mk shop []) where
  home := hh
  extended := .refl _
  known := by simp
  full := by simp
  spared place content hk _ := hk
  kept := by simp

theorem files_home (h : Faithful fs progress) :
    progress.shop.files.kindAt progress.shop.files.home ≠ none := by
  rw [h.extended.home]
  exact h.extended.kindAt_ne_none h.home

/-- A file that no errand has filled is read as it was at the start. -/
theorem regular?_eq (h : Faithful fs progress) {path : Path} {origin : Location} {content : Bytes}
    (hsource : fs.regular? path = some (origin, content))
    (hnot : ∀ id ∈ progress.errands, ¬ progress.shop.Fills id origin) :
    progress.shop.files.regular? path = some (origin, content) := by
  obtain ⟨read, hread, hregular⟩ := h.extended.regular? h.home hsource
  have hspared := h.spared origin content (kindAt_of_regular? hsource) hnot
  obtain rfl : read = content := by simpa [hread] using hspared
  exact hregular

/-- What a new errand writes is what its source held at the start, unless some errand has filled the
place of that file, or it is where the errand itself writes. -/
theorem written_eq (h : Faithful fs progress) {origin place source : Location}
    {content held : Bytes}
    (hc : Copies progress.shop.files shop.files errand.source errand.destination origin place
      content)
    (hsource : fs.regular? errand.source = some (source, held))
    (hnot : ∀ id ∈ progress.errands, ¬ progress.shop.Fills id source) (hne : place ≠ source) :
    written place origin content = held := by
  have hread : some (source, held) = some (origin, content) :=
    (h.regular?_eq hsource hnot).symm.trans hc.source
  cases hread
  exact if_neg hne

/-- What an errand has copied is still there, as long as the place that it filled is left alone. -/
theorem kept_of_alone (h : Faithful fs progress) (hx : Extends progress.shop.files shop.files)
    {ids : List ErrandId} (hsub : progress.errands ⊆ ids)
    (hfills : ∀ id ∈ progress.errands, ∀ place, progress.shop.Fills id place → shop.Fills id place)
    {id : ErrandId} (hid : id ∈ progress.errands) (he : progress.shop.errands[id]? = some errand)
    (hs : errand.success = true) {origin place : Location} {content held : Bytes}
    (hsource : fs.regular? errand.source = some (origin, content))
    (hbefore : ∀ other ∈ ids, other ≤ id → ¬ shop.Fills other origin)
    (hf : shop.files.regular? errand.destination = some (place, held))
    (hafter : ∀ other ∈ ids, id < other → ¬ shop.Fills other place)
    (halone : ∀ kind, progress.shop.files.kindAt place = some kind →
      shop.files.kindAt place = some kind) : held = content := by
  obtain ⟨place', errand', held', he', -, hf'⟩ := h.full id hid errand he hs
  obtain rfl : errand = errand' := Option.some.inj (he.symm.trans he')
  obtain ⟨still, hstill, hsame⟩ := hx.regular? h.files_home hf'
  have hsome : some (place, held) = some (place', still) := hf.symm.trans hsame
  cases hsome
  obtain rfl : held = held' := by
    simpa using hstill.symm.trans (halone _ (kindAt_of_regular? hf'))
  refine h.kept id hid errand origin content place held he hs hsource ?_ hf' ?_
  · exact fun other ho hle hfill => hbefore other (hsub ho) hle (hfills other ho origin hfill)
  · exact fun other ho hlt hfill => hafter other (hsub ho) hlt (hfills other ho place hfill)

/-- What is there may grow, and failures may be recorded. -/
theorem grow (h : Faithful fs progress) (hg : Grows progress.shop.files shop.files)
    {ids : List ErrandId} (hsub : progress.errands ⊆ ids)
    (hold : ∀ id < progress.shop.errands.length,
      shop.errands[id]? = progress.shop.errands[id]?)
    (hids : ∀ id ∈ ids, id < shop.errands.length ∧ (id ∈ progress.errands ∨
      ∀ errand, shop.errands[id]? = some errand → errand.success = false)) :
    Faithful fs ⟨shop, ids⟩ := by
  have hfills {id : ErrandId} (hid : id ∈ progress.errands) (place : Location) :
      shop.Fills id place ↔ progress.shop.Fills id place :=
    Workshop.fills_iff h.files_home hg.isExtension (hold id (h.known id hid)) (h.full id hid)
  have hmem {id : ErrandId} (hid : id ∈ ids) {errand : Errand}
      (he : shop.errands[id]? = some errand) (hs : errand.success = true) :
      id ∈ progress.errands := by
    refine (hids id hid).2.resolve_right fun hfail => ?_
    rw [hfail errand he] at hs
    cases hs
  refine ⟨h.home, h.extended.trans hg.isExtension, fun id hid => (hids id hid).1, ?_, ?_, ?_⟩
  · intro id hid errand he hs
    have hid' := hmem hid he hs
    rw [hold id (h.known id hid')] at he
    obtain ⟨place, hplace⟩ := h.full id hid' errand he hs
    exact ⟨place, (hfills hid' place).mpr hplace⟩
  · intro place content hk hnot
    refine hg.kindAt (h.spared place content hk fun id hid hf => ?_)
    exact hnot id (hsub hid) ((hfills hid place).mpr hf)
  · intro id hid errand origin content place held he hs hsource hbefore hf hafter
    have hid' := hmem hid he hs
    rw [hold id (h.known id hid')] at he
    exact h.kept_of_alone hg.isExtension hsub (fun other ho place => (hfills ho place).mpr) hid' he
      hs hsource hbefore hf hafter fun kind hk => hg.kindAt hk

/-- A new errand copies its file. -/
theorem succeed (h : Faithful fs progress) {origin place : Location} {content : Bytes}
    (hc : Copies progress.shop.files shop.files errand.source errand.destination origin place
      content) (hs : errand.success = true)
    (hold : shop.errands = progress.shop.errands ++ [errand]) :
    Faithful fs ⟨shop, progress.errands ++ [progress.shop.errands.length]⟩ := by
  set new := progress.shop.errands.length with hnew
  have hx := h.extended.trans hc.extended
  have hget {id : ErrandId} (hid : id ∈ progress.errands) :
      shop.errands[id]? = progress.shop.errands[id]? := by
    rw [hold, List.getElem?_append_left (h.known id hid)]
  have hgetnew : shop.errands[new]? = some errand := by
    rw [hold, hnew, List.getElem?_concat_length]
  have hfills {id : ErrandId} (hid : id ∈ progress.errands) (place : Location) :
      shop.Fills id place ↔ progress.shop.Fills id place :=
    Workshop.fills_iff h.files_home hc.extended (hget hid) (h.full id hid)
  have hwritten := hc.regular? h.files_home
  have hfillsnew : shop.Fills new place := ⟨errand, _, hgetnew, hs, hwritten⟩
  have hmemnew : new ∈ progress.errands ++ [new] := by simp
  refine ⟨h.home, hx, ?_, ?_, ?_, ?_⟩
  · intro id hid
    have hlen : shop.errands.length = new + 1 := by simp [hold, hnew]
    show id < shop.errands.length
    rw [hlen]
    rcases List.mem_append.mp hid with hid | hid
    · exact Nat.lt_succ_of_lt (h.known id hid)
    · exact List.mem_singleton.mp hid ▸ Nat.lt_succ_self new
  · intro id hid e he hse
    rcases List.mem_append.mp hid with hid | hid
    · obtain ⟨place', hp⟩ := h.full id hid e ((hget hid).symm.trans he) hse
      exact ⟨place', (hfills hid place').mpr hp⟩
    · rw [List.mem_singleton.mp hid]
      exact ⟨place, hfillsnew⟩
  · intro place' held hk hnot
    have hne : place' ≠ place := by
      rintro rfl
      exact hnot new hmemnew hfillsnew
    show shop.files.kindAt place' = _
    rw [hc.kindAt, Function.update_of_ne hne]
    refine h.spared place' held hk fun id hid hf => ?_
    exact hnot id (List.mem_append_left _ hid) ((hfills hid place').mpr hf)
  · intro id hid e source held place' held' he hse hsource hbefore hf hafter
    rcases List.mem_append.mp hid with hid | hid
    · have hne : place' ≠ place := by
        rintro rfl
        exact hafter new hmemnew (h.known id hid) hfillsnew
      refine h.kept_of_alone hc.extended (List.subset_append_left _ _)
        (fun other ho place => (hfills ho place).mpr) hid ((hget hid).symm.trans he) hse hsource
        hbefore hf hafter fun kind hk => ?_
      rw [hc.kindAt, Function.update_of_ne hne, hk]
    · obtain rfl := List.mem_singleton.mp hid
      obtain rfl : errand = e := Option.some.inj (hgetnew.symm.trans he)
      have hsome : some (place', held') = some (place, written place origin content) :=
        hf.symm.trans hwritten
      cases hsome
      refine h.written_eq hc hsource (fun id hid hf => ?_) ?_
      · refine hbefore id (List.mem_append_left _ hid) (Nat.le_of_lt (h.known id hid)) ?_
        exact (hfills hid source).mpr hf
      · rintro rfl
        exact hbefore new hmemnew (Nat.le_refl _) hfillsnew

theorem carry (h : Faithful fs progress) (errand : Errand) :
    Faithful fs (progress.carry none errand).1 := by
  obtain ⟨-, hids, hf, he⟩ := carry_inline progress errand
  generalize (progress.carry none errand).1 = next at hids hf he ⊢
  obtain ⟨shop, ids⟩ := next
  cases hids
  cases hc : progress.shop.files.copy errand.source errand.destination with
  | some copied =>
    obtain ⟨origin, place, content, hcopies⟩ := copies_of_copy hc
    rw [hc] at hf he
    have hdone : Copies progress.shop.files shop.files (errand.attempted true).source
        (errand.attempted true).destination origin place content := by
      rw [Errand.source_attempted, Errand.destination_attempted, hf]
      exact hcopies
    exact succeed h hdone (Errand.success_attempted _ _) he
  | none =>
    rw [hc] at hf he
    refine grow h (hf ▸ .refl _) (List.subset_append_left _ _) (fun id hid => ?_) fun id hid => ?_
    · rw [he, List.getElem?_append_left hid]
    · rw [he, List.length_append, List.length_singleton]
      rcases List.mem_append.mp hid with hid | hid
      · exact ⟨Nat.lt_succ_of_lt (h.known id hid), .inl hid⟩
      · obtain rfl := List.mem_singleton.mp hid
        refine ⟨Nat.lt_succ_self _, .inr fun e hfound => ?_⟩
        rw [List.getElem?_concat_length] at hfound
        cases hfound
        exact Errand.success_attempted _ _

theorem handle (h : Faithful fs progress) (source destination : Path) (item : Item) :
    Faithful fs (progress.handle source destination none item).1 := by
  unfold Progress.handle
  split
  · exact grow h (grows_of_layUpTo rfl) (List.Subset.refl _) (fun _ _ => rfl)
      fun id hid => ⟨h.known id hid, .inl hid⟩
  · split
    · exact h.carry _
    · exact h

end Faithful

/-- The bytes of a successful errand: its destination leads to a file that holds what the file of
its source held when the copy began, if no errand up to this one has filled the place of that file,
and no later one the same place as this one. -/
theorem copy_faithful {shop after : Workshop} {source destination : Path} {ids : List ErrandId}
    (hhome : shop.files.kindAt shop.files.home ≠ none)
    (hcopy : copy shop source destination none = (after, .ok ids)) {id : ErrandId} (hid : id ∈ ids)
    {errand : Errand} (he : after.errands[id]? = some errand) (hs : errand.success = true)
    {origin : Location} {content : Bytes}
    (hsource : shop.files.regular? errand.source = some (origin, content))
    (hbefore : ∀ other ∈ ids, other ≤ id → after.filled? other ≠ some origin)
    (hafter : ∀ other ∈ ids, id < other → after.filled? other ≠ after.filled? id) :
    ∃ place, after.files.regular? errand.destination = some (place, content) := by
  have hwalk : Faithful shop.files (walk (fun progress => progress.shop.files)
      (Progress.handle source destination none) Error.io source (Progress.mk shop [])).1 :=
    walk_keeps (fun item progress h => h.handle source destination item) source (.start hhome)
  unfold copy at hcopy
  split at hcopy
  next progress failure hw =>
  rw [hw] at hwalk
  split at hcopy
  · cases hcopy
    obtain ⟨place, errand', held, he', -, hf⟩ := hwalk.full id hid errand he hs
    obtain rfl : errand = errand' := Option.some.inj (he.symm.trans he')
    have hfilled := Workshop.filled?_eq_some_iff.mpr ⟨errand, held, he, hs, hf⟩
    have hheld := hwalk.kept id hid errand origin content place held he hs hsource
      (fun other ho hle hfill => hbefore other ho hle (Workshop.filled?_eq_some_iff.mpr hfill)) hf
      fun other ho hlt hfill => hafter other ho hlt
        ((Workshop.filled?_eq_some_iff.mpr hfill).trans hfilled.symm)
    exact ⟨place, hheld ▸ hf⟩
  · cases hcopy

/-- A workshop with two files in one directory, and a link in another that makes the name of the
first one stand for the second. -/
def crossed : Workshop where
  files :=
    { entries :=
        [(Bytes.ofString "a", .directory [(Bytes.ofString "x", .file (Bytes.ofString "1")),
          (Bytes.ofString "y", .file (Bytes.ofString "2"))]),
        (Bytes.ofString "b", .directory [(Bytes.ofString "x", .link (.ofString "y"))])]
      home := [] }

/-- Both files are copied to the same place, and the second one stays. -/
theorem copy_faithful_crossed :
    ∃ after errand place, copy crossed (.ofString "a") (.ofString "b") none = (after, .ok [0, 1]) ∧
      after.errands[1]? = some errand ∧ errand.success = true ∧
      after.files.regular? errand.destination = some (place, Bytes.ofString "2") := by
  let after := (copy crossed (.ofString "a") (.ofString "b") none).1
  have hcopy : copy crossed (.ofString "a") (.ofString "b") none = (after, .ok [0, 1]) :=
    Prod.ext rfl (by decide +kernel)
  let errand : Errand :=
    { directory := .ofString "a"
      source := .ofString "a/y"
      destination := .ofString "b/y"
      level := 1
      success := true
      all := [.ofString "a/y"] }
  have he : after.errands[1]? = some errand := by decide +kernel
  have hsource : crossed.files.regular? errand.source =
      some ([Bytes.ofString "y", Bytes.ofString "a"], Bytes.ofString "2") := by decide +kernel
  have hid : (1 : ErrandId) ∈ [0, 1] := by decide
  obtain ⟨place, hplace⟩ := copy_faithful (by decide +kernel) hcopy hid he rfl hsource
    (by decide +kernel) (by decide +kernel)
  exact ⟨after, errand, place, hcopy, he, rfl, hplace⟩

/-- A file that is copied to itself is empty afterwards, and its errand counts as a success. -/
theorem copy_onto_itself :
    let shop : Workshop :=
      { files := { entries := [(Bytes.ofString "one.txt", .file (Bytes.ofString "only"))]
                   home := [] } }
    let path := Path.ofString "one.txt"
    let (after, result) := copy shop path path none
    result = .ok [0] ∧ (after.errands.map fun errand => (errand.destination, errand.success)) =
        [(path, true)] ∧
      shop.files.regular? path = some ([path.bytes], Bytes.ofString "only") ∧
      after.files.regular? path = some ([path.bytes], []) := by
  decide +kernel

end Tree
end TreePool
