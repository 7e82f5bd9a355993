import TreePool.Proofs.FileSystem.Change
import TreePool.Proofs.Tree.Walk
import TreePool.Tree.Copy

/-! # Copying in a workshop

What it does to a workshop to carry out an errand: one copy of a file, and what the errand records
of it. The other errands stay as they are.
-/

namespace TreePool
namespace Errand

theorem make_eq_ok_iff {directory source destination : Path} {level : Int}
    {outcome : Option OutcomeId} {errand : Errand} :
    make directory source destination level outcome = .ok errand ↔
      directory.length < pathLimit ∧ source.length < pathLimit ∧
        destination.length < pathLimit ∧
        errand = { directory, source, destination, level, outcome } := by
  unfold make checkLength
  by_cases hd : pathLimit ≤ directory.length
  · simp [hd, bind, Except.bind, Nat.not_lt.mpr hd]
  by_cases hs : pathLimit ≤ source.length
  · simp [hd, hs, bind, Except.bind, Nat.not_lt.mpr hs]
  by_cases ht : pathLimit ≤ destination.length
  · simp [hd, hs, ht, bind, Except.bind, Nat.not_lt.mpr ht]
  · simp [hd, hs, ht, bind, Except.bind, Nat.not_le.mp, eq_comm]

def attempted (errand : Errand) (success : Bool) : Errand :=
  (errand.copyRecords success).foldl record errand

variable (errand : Errand) (success : Bool)

theorem attempted_eq : errand.attempted success =
    { errand with
      success := success
      failed := errand.failed ++ if success then [] else [errand.source]
      all := errand.all ++ [errand.source] } := by
  cases success <;> simp [attempted, copyRecords]

@[simp] theorem source_attempted : (errand.attempted success).source = errand.source := by
  simp [attempted_eq]

@[simp] theorem destination_attempted :
    (errand.attempted success).destination = errand.destination := by
  simp [attempted_eq]

@[simp] theorem success_attempted : (errand.attempted success).success = success := by
  simp [attempted_eq]

end Errand

namespace Workshop

variable (shop : Workshop) {id : ErrandId} {errand : Errand}

@[simp] theorem files_fail (pool : PoolId) : (shop.fail pool).files = shop.files := rfl

@[simp] theorem errands_fail (pool : PoolId) : (shop.fail pool).errands = shop.errands := rfl

variable {shop} in
theorem pool?_fail {id : PoolId} {pool : Pool Effect} (marked : PoolId)
    (hp : shop.pool? id = some pool) :
    (shop.fail marked).pool? id = some (if marked = id then pool.fail else pool) := by
  rw [Workshop.fail, pool?, List.getElem?_modify]
  exact congrArg _ hp

variable {shop} in
theorem pool?_record {other : PoolId} {pool : Pool Effect} (he : shop.errands[id]? = some errand)
    (record : Record) (hp : shop.pool? other = some pool) :
    (shop.record id record).pool? other =
      some (if errand.marks record = some other then pool.fail else pool) := by
  let recorded := { shop with errands := shop.errands.set id (errand.record record) }
  have hset : recorded.pool? other = some pool := hp
  simp only [Workshop.record, he]
  cases errand.marks record with
  | none => simpa using hset
  | some marked => simpa using pool?_fail marked hset

@[simp] theorem files_record (id : ErrandId) (record : Record) :
    (shop.record id record).files = shop.files := by
  unfold Workshop.record
  split
  · rfl
  · split <;> rfl

theorem errands_record (h : shop.errands[id]? = some errand) (record : Record) :
    (shop.record id record).errands = shop.errands.set id (errand.record record) := by
  simp only [Workshop.record, h]
  split <;> rfl

@[simp] theorem files_recordAll (id : ErrandId) (records : List Record) :
    (shop.recordAll id records).files = shop.files := by
  induction records generalizing shop with
  | nil => rfl
  | cons record records ih => exact (ih _).trans (files_record _ _ _)

theorem errands_recordAll (h : shop.errands[id]? = some errand) (records : List Record) :
    (shop.recordAll id records).errands =
      shop.errands.set id (records.foldl Errand.record errand) := by
  induction records generalizing shop errand with
  | nil =>
    obtain ⟨hid, rfl⟩ := List.getElem?_eq_some_iff.mp h
    exact (List.set_getElem_self hid).symm
  | cons record records ih =>
    have hid : id < shop.errands.length := (List.getElem?_eq_some_iff.mp h).1
    have hset := errands_record shop h record
    have hnext : (shop.record id record).errands[id]? = some (errand.record record) := by
      rw [hset, List.getElem?_set_self hid]
    rw [recordAll, List.foldl_cons, ← recordAll, ih _ hnext, hset, List.set_set, List.foldl_cons]

theorem copy_eq (h : shop.errands[id]? = some errand) :
    let copied? := shop.files.copy errand.source errand.destination
    (shop.copy id).files = copied?.getD shop.files ∧
      (shop.copy id).errands = shop.errands.set id (errand.attempted copied?.isSome) := by
  cases hc : shop.files.copy errand.source errand.destination with
  | some copied =>
    simp only [Workshop.copy, h, Errand.carryOut, hc]
    exact ⟨files_recordAll _ _ _, errands_recordAll { shop with files := copied } h _⟩
  | none =>
    simp only [Workshop.copy, h, Errand.carryOut, hc]
    exact ⟨files_recordAll _ _ _, errands_recordAll shop h _⟩

/-! ## Errands in a row -/

variable {shop} in
theorem errandsAt_range' {count : Nat} {expected : List Errand}
    (h : ∀ i errand, expected[i]? = some errand → shop.errands[count + i]? = some errand) :
    shop.errandsAt (List.range' count expected.length) = expected := by
  induction expected generalizing count with
  | nil => rfl
  | cons errand rest ih =>
    have hfirst : shop.errands[count]? = some errand := h 0 errand rfl
    have hrest := @ih (count + 1) fun i other hi => by
      rw [Nat.add_assoc, Nat.add_comm 1 i]
      exact h (i + 1) other hi
    rw [List.length_cons, List.range'_succ, errandsAt, List.filterMap_cons, hfirst]
    exact congrArg _ hrest

variable {shop} in
theorem errandsAt_range : shop.errandsAt (List.range shop.errands.length) = shop.errands := by
  rw [List.range_eq_range']
  apply errandsAt_range'
  intro i errand hi
  rwa [Nat.zero_add]

end Workshop

namespace Tree

theorem coarse_handle (source destination : Path) (crew : Option PoolId) :
    Coarse (Progress.handle source destination crew) := by
  intro item progress
  obtain ⟨path, names, kind⟩ := item
  cases kind <;> rfl

theorem errandFor_eq_ok_iff {source destination : Path} {crew : Option PoolId} {item : Item}
    {errand : Errand} :
    Progress.errandFor source destination crew item = .ok errand ↔
      item.depth ≤ int32Max ∧
        Errand.make source item.path (target destination item) item.depth crew = .ok errand := by
  unfold Progress.errandFor level
  split_ifs with h
  · simp [h, bind, Except.bind]
  · simp [h, bind, Except.bind]

theorem carry_inline (progress : Progress) (errand : Errand) :
    let copied? := progress.shop.files.copy errand.source errand.destination
    let carried := progress.carry none errand
    carried.2 = none ∧ carried.1.errands = progress.errands ++ [progress.shop.errands.length] ∧
      carried.1.shop.files = copied?.getD progress.shop.files ∧
      carried.1.shop.errands = progress.shop.errands ++ [errand.attempted copied?.isSome] := by
  have hnew : (progress.shop.addErrand errand).errands[progress.shop.errands.length]? =
      some errand := by
    rw [Workshop.addErrand, List.getElem?_concat_length]
  obtain ⟨hf, he⟩ := Workshop.copy_eq _ hnew
  refine ⟨rfl, rfl, hf, he.trans ?_⟩
  simp [Workshop.addErrand]

end Tree
end TreePool
