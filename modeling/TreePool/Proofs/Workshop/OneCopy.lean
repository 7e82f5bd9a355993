import TreePool.Proofs.Workshop.Copying

/-! # One copy

To carry out an errand is to copy one file, or to change no file at all. It comes to a copy when the
source leads to a regular file and the destination to one, or to a name in a directory that a new
file can have; links on both sides are followed. This classifies all that two paths can lead to: in
each of the other cases the attempt is recorded as a failure, and the outcome that the errand is
bound to is marked.
-/

namespace TreePool
namespace Workshop

open FileSystem

variable {shop : Workshop} {id : ErrandId} {errand : Errand} {place : Location} {content : Bytes}

theorem recordAll_copyRecords (he : shop.errands[id]? = some errand) (success : Bool) :
    shop.recordAll id (errand.copyRecords success) =
      { if success then shop else errand.outcome.elim shop shop.fail with
        errands := shop.errands.set id (errand.attempted success) } := by
  obtain ⟨hid, rfl⟩ := List.getElem?_eq_some_iff.mp he
  cases success with
  | true =>
    simp [recordAll, Errand.copyRecords, Errand.attempted, record, Errand.marks,
      Record.isFailure, hid]
  | false =>
    cases ho : shop.errands[id].outcome <;>
      simp [recordAll, Errand.copyRecords, Errand.attempted, record, Errand.marks,
        Record.isFailure, hid, ho, fail]

/-- What is left of an attempt that succeeded: a file is written, and nothing else is touched but
what the errand records. -/
structure Delivered (shop after : Workshop) (id : ErrandId) (errand : Errand)
    (place : Location) (content : Bytes) : Prop where
  /-- There was a file, or an acceptable name in an existing directory was free. -/
  fillable : (∃ old, shop.files.kindAt place = some (.file old)) ∨
    ∃ name directory, place = name :: directory ∧ LeadsDown name ∧
      shop.files.kindAt directory = some .directory ∧ shop.files.kindAt place = none
  kindAt (location : Location) : after.files.kindAt location =
    if location = place then some (.file content) else shop.files.kindAt location
  home : after.files.home = shop.files.home
  /-- The destination leads to the file that was written. -/
  regular? (hh : shop.files.kindAt shop.files.home ≠ none) :
    after.files.regular? errand.destination = some (place, content)
  rest : after = { shop with
    files := after.files
    errands := shop.errands.set id
      { errand with success := true, all := errand.all ++ [errand.source] } }

/-- What is left of an attempt that failed: what the errand records, and a mark on the outcome that
it is bound to. -/
structure Declined (shop after : Workshop) (id : ErrandId) (errand : Errand) : Prop where
  files : after.files = shop.files
  outcome {number : PoolId} {pool : Pool Effect} (ho : errand.outcome = some number)
    (hp : shop.pool? number = some pool) : ∃ failed, after.pool? number = some failed ∧
      failed.outcome = false
  rest : after = { errand.outcome.elim shop shop.fail with
    errands := shop.errands.set id
      { errand with
        success := false
        failed := errand.failed ++ [errand.source]
        all := errand.all ++ [errand.source] } }

/-- An attempt to copy a file writes one file or none, as the case may be: one if the source leads
to a regular file and the destination to a place where a file can be written. -/
theorem delivered_or_declined (he : shop.errands[id]? = some errand) :
    (∃ origin content place,
      shop.files.regular? errand.source = some (origin, content) ∧
      shop.files.Opens errand.destination place ∧
      Delivered shop (shop.copy id) id errand place (written place origin content)) ∨
    (shop.files.regular? errand.source = none ∨
      ∀ place, ¬ shop.files.Opens errand.destination place) ∧
      Declined shop (shop.copy id) id errand := by
  have hdeclined (hc : shop.files.copy errand.source errand.destination = none) :
      Declined shop (shop.copy id) id errand := by
    have hcopy : shop.copy id = shop.recordAll id (errand.copyRecords false) := by
      simp only [Workshop.copy, he, Errand.carryOut, hc]
    rw [recordAll_copyRecords he, Errand.attempted_eq] at hcopy
    refine ⟨?_, fun {number pool} ho hp => ⟨pool.fail, ?_, rfl⟩, hcopy⟩
    · rw [hcopy]
      cases errand.outcome <;> rfl
    · rw [hcopy, ho]
      exact (pool?_fail number hp).trans (by simp)
  cases hs : shop.files.regular? errand.source with
  | none => exact .inr ⟨.inl rfl, hdeclined (copy_of_regular?_eq_none hs)⟩
  | some found =>
    obtain ⟨origin, content⟩ := found
    by_cases ho : ∃ place, shop.files.Opens errand.destination place
    · obtain ⟨place, ho⟩ := ho
      obtain ⟨copied, hc, hcopies⟩ := ho.exists_copies hs
      have hcopy : shop.copy id =
          { shop with files := copied }.recordAll id (errand.copyRecords true) := by
        simp only [Workshop.copy, he, Errand.carryOut, hc]
      rw [@recordAll_copyRecords { shop with files := copied } _ _ he, Errand.attempted_eq] at hcopy
      simp only [↓reduceIte, List.append_nil] at hcopy
      refine .inl ⟨origin, content, place, rfl, ho, ho.fillable, ?_, ?_, ?_, ?_⟩
      · intro location
        rw [hcopy, hcopies.kindAt, Function.update_apply]
      · rw [hcopy, hcopies.extended.home]
      · intro hh
        rw [hcopy, hcopies.regular? hh]
      · rw [hcopy]
    · have hno := not_exists.mp ho
      exact .inr ⟨.inr hno, hdeclined (copy_eq_none_of_not_opens hno)⟩

/-- An attempt to copy a file writes one file, and records a success, or leaves all files as they
are, and records a failure. It succeeds if and only if the source leads to a regular file and the
destination to a place where a file can be written. -/
theorem copy_all_or_nothing (shop : Workshop) {id : ErrandId} {errand : Errand}
    (he : shop.errands[id]? = some errand) :
    ((∃ origin content place,
        shop.files.regular? errand.source = some (origin, content) ∧
        shop.files.Opens errand.destination place ∧
        Delivered shop (shop.copy id) id errand place (written place origin content)) ∨
      Declined shop (shop.copy id) id errand) ∧
    ((∃ after, (shop.copy id).errands[id]? = some after ∧ after.success = true) ↔
      (∃ origin content, shop.files.regular? errand.source = some (origin, content)) ∧
        ∃ place, shop.files.Opens errand.destination place) := by
  have hid : id < shop.errands.length := (List.getElem?_eq_some_iff.mp he).1
  rcases delivered_or_declined he with ⟨origin, content, place, hs, ho, h⟩ | ⟨hno, h⟩
  · refine ⟨.inl ⟨origin, content, place, hs, ho, h⟩, fun _ => ⟨⟨origin, content, hs⟩, place, ho⟩,
      fun _ => ?_⟩
    rw [h.rest, List.getElem?_set_self hid]
    exact ⟨_, rfl, rfl⟩
  · refine ⟨.inr h, ?_, ?_⟩
    · rintro ⟨after, hafter, hsuccess⟩
      rw [h.rest, List.getElem?_set_self hid] at hafter
      cases hafter
      cases hsuccess
    · rintro ⟨⟨origin, content, hs⟩, place, ho⟩
      rcases hno with hno | hno
      · rw [hs] at hno
        cases hno
      · exact absurd ho (hno place)

/-- An errand from a link to a file to a link that leads to a free name, tried once already. -/
def relay : Workshop :=
  { files :=
    { entries :=
        [(Bytes.ofString "f", .file (Bytes.ofString "1")),
          (Bytes.ofString "in", .link (.ofString "f")),
          (Bytes.ofString "out", .link (.ofString "new"))]
      home := [] }
    errands := [{
      directory := .ofString "."
      source := .ofString "in"
      destination := .ofString "out"
      level := 0
      failed := [.ofString "in"]
      all := [.ofString "in"] }] }

/-- The file is made where the second link leads; the earlier failure stays on record. -/
theorem copy_all_or_nothing_relay :
    (relay.copy 0).files.kindAt [Bytes.ofString "new"] = some (.file (Bytes.ofString "1")) ∧
      (relay.copy 0).files.kindAt [Bytes.ofString "out"] = some (.link (.ofString "new")) ∧
      ∃ after, (relay.copy 0).errands[0]? = some after ∧ after.success = true := by
  have hsource : relay.files.regular? (.ofString "in") =
      some ([Bytes.ofString "f"], Bytes.ofString "1") := by decide +kernel
  have hroot : relay.files.kindAt [] = some .directory := rfl
  have hlink : relay.files.kindAt [Bytes.ofString "out"] = some (.link (.ofString "new")) := by
    decide +kernel
  have hfree : relay.files.kindAt [Bytes.ofString "new"] = none := by decide
  have hopens : relay.files.Opens (.ofString "out") [Bytes.ofString "new"] :=
    .free (by decide)
      (.detour hroot ⟨by decide, by decide, by decide⟩ hlink (.inr rfl)
        (.vacant hroot ⟨by decide, by decide, by decide⟩ hfree))
  obtain ⟨hcopy, hiff⟩ := relay.copy_all_or_nothing (show relay.errands[0]? = some _ from rfl)
  obtain ⟨after, hafter, hsuccess⟩ := hiff.mpr ⟨⟨_, _, hsource⟩, _, hopens⟩
  obtain ⟨origin, content, place, hs, ho, h⟩ := hcopy.resolve_right fun h => by
    rw [h.rest] at hafter
    cases hafter
    cases hsuccess
  cases hsource.symm.trans hs
  obtain rfl := ho.unique hopens
  refine ⟨?_, ?_, after, hafter, hsuccess⟩
  · rw [h.kindAt, if_pos rfl]
    decide
  · rw [h.kindAt, if_neg (by decide), hlink]

end Workshop
end TreePool
