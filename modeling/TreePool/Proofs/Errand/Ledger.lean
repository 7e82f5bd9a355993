import TreePool.Errand.Ledger
import TreePool.Proofs.Errand.Report
import TreePool.Proofs.Run
import TreePool.Proofs.Workshop.Copying
import Mathlib.Data.List.Induction

/-! # What a ledger remembers

The lists of an errand only grow, and only its verdict is overwritten. So an errand tells all that
was ever recorded on it, in order, and a failed file that was copied in the end still counts against
the batch: a summary speaks of success exactly when the last verdict on each errand is a success and
no failure was ever recorded on any of them. This is `remembers_of_play?`.
-/

namespace TreePool

/-! ## Records -/

namespace Record

def verdict? : Record → Option Bool
  | .success => some true
  | .failure _ => some false
  | .entry _ => none

def failure? : Record → Option Path
  | .failure path => some path
  | _ => none

def entry? : Record → Option Path
  | .entry path => some path
  | _ => none

/-- The last verdict among some records. Without a verdict there is no success. -/
def lastVerdict (records : List Record) : Bool :=
  (records.filterMap verdict?).getLast?.getD false

theorem filterMap_failure?_eq_nil_iff {records : List Record} :
    records.filterMap failure? = [] ↔ ∀ path, .failure path ∉ records := by
  rw [List.filterMap_eq_nil_iff]
  constructor
  · intro h path hm
    cases h _ hm
  · intro h record hm
    cases record with
    | failure path => exact absurd hm (h path)
    | success | entry => rfl

end Record

/-- What an errand tells is what was recorded on it: all failures and all entries in order, and the
last verdict. -/
structure Errand.TellsOf (errand : Errand) (records : List Record) : Prop where
  failed : errand.failed = records.filterMap Record.failure?
  all : errand.all = records.filterMap Record.entry?
  success : errand.success = Record.lastVerdict records

namespace Errand.TellsOf

variable {errand : Errand} {records : List Record}

theorem of_make {directory source destination : Path} {level : Int} {outcome : Option OutcomeId}
    (h : make directory source destination level outcome = .ok errand) : errand.TellsOf [] := by
  obtain ⟨-, -, -, rfl⟩ := make_eq_ok_iff.mp h
  exact ⟨rfl, rfl, rfl⟩

theorem record (h : errand.TellsOf records) (record : Record) :
    (errand.record record).TellsOf (records ++ [record]) := by
  cases record <;> constructor <;>
    simp [h.failed, h.all, h.success, Record.lastVerdict, Record.verdict?, Record.failure?,
      Record.entry?]

end Errand.TellsOf

/-! ## Summaries -/

namespace Summary

theorem collect_append (first second : List Errand) :
    collect (first ++ second) =
      { total := (collect first).total + (collect second).total
        succeeded := (collect first).succeeded + (collect second).succeeded
        failed := (collect first).failed ++ (collect second).failed } := by
  simp only [collect_eq, List.length_append, List.countP_append, List.flatMap_append]

theorem isSuccess_iff (errands : List Errand) :
    (collect errands).isSuccess = true ↔
      ∀ errand ∈ errands, errand.success = true ∧ errand.failed = [] := by
  rw [collect_eq, isSuccess, Bool.and_eq_true, List.isEmpty_iff, beq_iff_eq,
    List.flatMap_eq_nil_iff, List.countP_eq_length, forall₂_and, and_comm]

end Summary

namespace Ledger

/-! ## Events -/

inductive Event where
  | add (directory source destination : Path) (level : Int) (outcome : Option OutcomeId)
  | record (errand : ErrandId) (record : Record)
  | fail (outcome : OutcomeId)
deriving DecidableEq

/-- A ledger after an event. It takes an errand to record something on it, and an errand that
cannot be made leaves the ledger as it is. -/
def step? (ledger : Ledger) : Event → Option Ledger
  | .add directory source destination level outcome =>
    match Errand.make directory source destination level outcome with
    | .ok errand => some (ledger.add errand)
    | .error _ => some ledger
  | .record id record =>
    if id < ledger.errands.length then some (ledger.record id record) else none
  | .fail outcome => some (ledger.fail outcome)

abbrev play? (ledger : Ledger) (events : List Event) : Option Ledger := after? step? ledger events

inductive Transition (ledger : Ledger) : Event → Ledger → Prop
  | add {directory source destination : Path} {level : Int} {outcome : Option OutcomeId}
      {errand : Errand} (h : Errand.make directory source destination level outcome = .ok errand) :
      Transition ledger (.add directory source destination level outcome) (ledger.add errand)
  | refuse {directory source destination : Path} {level : Int} {outcome : Option OutcomeId}
      {e : Error} (h : Errand.make directory source destination level outcome = .error e) :
      Transition ledger (.add directory source destination level outcome) ledger
  | record {id : ErrandId} {errand : Errand} (item : Record)
      (h : ledger.errands[id]? = some errand) :
      Transition ledger (.record id item)
        ⟨ledger.errands.set id (errand.record item),
          (errand.marks item).elim ledger.outcomes (ledger.outcomes.set · false)⟩
  | fail (outcome : OutcomeId) : Transition ledger (.fail outcome) (ledger.fail outcome)

variable {ledger next : Ledger} {event : Event} {events : List Event} {outcomes : Nat}
variable {id : ErrandId} {errand : Errand} {item : Record}

theorem transition_of_step? (h : ledger.step? event = some next) :
    Transition ledger event next := by
  cases event with
  | add directory source destination level outcome =>
    simp only [step?] at h
    split at h
    · next hmake =>
      cases h
      exact .add hmake
    · next hmake =>
      cases h
      exact .refuse hmake
  | record id item =>
    obtain ⟨hid, h⟩ := Option.ite_none_right_eq_some.mp h
    have hget := List.getElem?_eq_getElem hid
    have hnext : next = ⟨ledger.errands.set id (ledger.errands[id].record item),
        (ledger.errands[id].marks item).elim ledger.outcomes (ledger.outcomes.set · false)⟩ := by
      rw [← Option.some.inj h]
      simp only [Ledger.record, hget]
      cases ledger.errands[id].marks item <;> rfl
    rw [hnext]
    exact .record item hget
  | fail outcome =>
    cases h
    exact .fail outcome

theorem Transition.length_le (h : Transition ledger event next) :
    ledger.errands.length ≤ next.errands.length := by
  cases h with
  | add => simp [Ledger.add]
  | record => simp
  | refuse | fail => exact le_rfl

/-! ## Records in a run -/

def Event.recordOn? (id : ErrandId) : Event → Option Record
  | .record errand item => if errand = id then some item else none
  | _ => none

def recordsOn (id : ErrandId) (events : List Event) : List Record :=
  events.filterMap (Event.recordOn? id)

theorem mem_recordsOn : item ∈ recordsOn id events ↔ .record id item ∈ events := by
  rw [recordsOn, List.mem_filterMap]
  constructor
  · rintro ⟨event, hm, h⟩
    cases event with
    | record id' item' =>
      obtain ⟨rfl, hitem⟩ := Option.ite_none_right_eq_some.mp h
      obtain rfl := Option.some.inj hitem
      exact hm
    | add | fail => cases h
  · intro hm
    exact ⟨_, hm, if_pos rfl⟩

theorem recordsOn_concat (id : ErrandId) (events : List Event) (event : Event) :
    recordsOn id (events ++ [event]) = recordsOn id events ++ (event.recordOn? id).toList := by
  rw [recordsOn, List.filterMap_append]
  cases h : event.recordOn? id <;> simp [recordsOn, h]

theorem Transition.getElem?_eq (h : Transition ledger event next)
    (hid : id < ledger.errands.length) :
    next.errands[id]? =
      ledger.errands[id]?.map fun errand => (event.recordOn? id).elim errand errand.record := by
  cases h with
  | add => exact (List.getElem?_append_left hid).trans Option.map_id'.symm
  | @record id' errand item hget =>
    rw [List.getElem?_set, Event.recordOn?]
    split_ifs with heq
    · subst heq
      rw [hget]
      rfl
    · exact absurd (heq ▸ hid) ‹_›
    · exact Option.map_id'.symm
  | refuse | fail => exact Option.map_id'.symm

theorem Transition.tellsOf (h : Transition ledger event next) (hid : ledger.errands.length ≤ id)
    (he : next.errands[id]? = some errand) : errand.TellsOf [] := by
  have hlt := (List.getElem?_eq_some_iff.mp he).1
  cases h with
  | add hmake =>
    rw [Ledger.add, List.getElem?_append_right hid] at he
    obtain rfl := List.mem_singleton.mp (List.mem_of_getElem? he)
    exact .of_make hmake
  | record => exact absurd (hlt.trans_eq List.length_set) (Nat.not_lt.mpr hid)
  | refuse | fail => exact absurd hlt (Nat.not_lt.mpr hid)

theorem Transition.known (h : Transition ledger event next)
    (hk : ∀ id item, .record id item ∈ events → id < ledger.errands.length) (id : ErrandId)
    (item : Record) (hm : .record id item ∈ events ++ [event]) : id < ledger.errands.length := by
  rcases List.mem_append.mp hm with hm | hm
  · exact hk id item hm
  · obtain rfl := List.mem_singleton.mp hm
    cases h with
    | record _ hget => exact (List.getElem?_eq_some_iff.mp hget).1

/-! ## Outcomes -/

def outcomeOf? (ledger : Ledger) (id : ErrandId) : Option OutcomeId :=
  ledger.errands[id]?.bind Errand.outcome

def Event.mark? (ledger : Ledger) : Event → Option OutcomeId
  | .add _ _ _ _ _ => none
  | .record id item => if item.isFailure then ledger.outcomeOf? id else none
  | .fail outcome => some outcome

/-- Somebody marked an outcome, or a failure was recorded on an errand that is bound to it. -/
def IsMarked (ledger : Ledger) (events : List Event) (outcome : OutcomeId) : Prop :=
  .fail outcome ∈ events ∨ ∃ id path, .record id (.failure path) ∈ events ∧
    ledger.outcomeOf? id = some outcome

theorem Transition.outcomes_eq (h : Transition ledger event next) :
    next.outcomes = (event.mark? ledger).elim ledger.outcomes (ledger.outcomes.set · false) := by
  cases h with
  | record item hget =>
    rw [Event.mark?, outcomeOf?, hget]
    rfl
  | add | refuse | fail => rfl

theorem Transition.outcomeOf?_eq (h : Transition ledger event next)
    (hid : id < ledger.errands.length) : next.outcomeOf? id = ledger.outcomeOf? id := by
  rw [outcomeOf?, outcomeOf?, h.getElem?_eq hid, Option.bind_map]
  congr 1
  funext errand
  rcases event.recordOn? id with _ | _ | _ | _ <;> rfl

theorem Transition.isMarked_iff (h : Transition ledger event next) {outcome : OutcomeId}
    (hk : ∀ id item, .record id item ∈ events → id < ledger.errands.length) :
    next.IsMarked (events ++ [event]) outcome ↔
      ledger.IsMarked events outcome ∨ event.mark? ledger = some outcome := by
  have hmarked : next.IsMarked (events ++ [event]) outcome ↔
      ledger.IsMarked (events ++ [event]) outcome := by
    refine or_congr_right (exists_congr fun id => exists_congr fun path => ?_)
    refine and_congr_right fun hm => ?_
    rw [h.outcomeOf?_eq (h.known hk id _ hm)]
  have hlast : ledger.IsMarked [event] outcome ↔ event.mark? ledger = some outcome := by
    rw [IsMarked]
    cases event with
    | record id item => cases item <;> simp [Event.mark?, Record.isFailure]
    | add | fail => simp [Event.mark?, eq_comm]
  rw [hmarked, ← hlast]
  simp only [IsMarked, List.mem_append, or_and_right, exists_or]
  exact or_or_or_comm

/-! ## Runs -/

/-- What is kept in a run: errands tell what was recorded on them, nothing is recorded on an errand
before it is made, and an outcome is failed once it is marked. -/
structure Traced (outcomes : Nat) (events : List Event) (ledger : Ledger) : Prop where
  tells : ∀ id (errand : Errand), ledger.errands[id]? = some errand →
    errand.TellsOf (recordsOn id events)
  known : ∀ id item, .record id item ∈ events → id < ledger.errands.length
  outcome : ∀ outcome : OutcomeId, ledger.outcomes[outcome]? = some true ↔
    outcome < outcomes ∧ ¬ ledger.IsMarked events outcome

theorem traced_start : Traced outcomes [] (start outcomes) where
  tells _ _ h := nomatch h
  known _ _ h := nomatch h
  outcome outcome := by simp [start, IsMarked, List.getElem?_replicate]

theorem Traced.step (ht : Traced outcomes events ledger) (h : Transition ledger event next) :
    Traced outcomes (events ++ [event]) next where
  tells id errand he := by
    rcases lt_or_ge id ledger.errands.length with hid | hid
    · rw [h.getElem?_eq hid] at he
      obtain ⟨before, hb, rfl⟩ := Option.map_eq_some_iff.mp he
      have htells := ht.tells id before hb
      rw [recordsOn_concat]
      cases event.recordOn? id with
      | none => rwa [Option.toList_none, List.append_nil]
      | some item => exact htells.record item
    · have hnone : recordsOn id (events ++ [event]) = [] := by
        refine List.eq_nil_iff_forall_not_mem.mpr fun item hm => ?_
        exact absurd (h.known ht.known id item (mem_recordsOn.mp hm)) (Nat.not_lt.mpr hid)
      rw [hnone]
      exact h.tellsOf hid he
  known id item hm := (h.known ht.known id item hm).trans_le h.length_le
  outcome outcome := by
    rw [h.isMarked_iff ht.known, not_or, ← and_assoc, ← ht.outcome, h.outcomes_eq]
    cases event.mark? ledger with
    | none => simp
    | some marked =>
      rw [Option.elim_some, List.getElem?_set]
      split_ifs with heq hlt
      · simp [heq]
      · simp [heq]
      · simp [heq]

theorem traced_of_play? (h : (start outcomes).play? events = some ledger) :
    Traced outcomes events ledger := by
  induction events using List.reverseRecOn generalizing ledger with
  | nil =>
    cases h
    exact traced_start
  | append_singleton events event ih =>
    obtain ⟨before, hbefore, h⟩ := after?_append_eq_some_iff.mp h
    obtain ⟨after, hs, h⟩ := after?_cons_eq_some_iff.mp h
    cases h
    exact (ih hbefore).step (transition_of_step? hs)

/-- What a ledger remembers of what happened to it, and what summaries of its errands tell. A batch
may list an errand more than once. -/
structure Remembers (outcomes : Nat) (events : List Event) (ledger : Ledger) : Prop where
  /-- The lists of an errand are all that was recorded on it, and its flag is its last verdict. -/
  tells : ∀ id (errand : Errand), ledger.errands[id]? = some errand →
    errand.TellsOf (recordsOn id events)
  outcome : ∀ outcome : OutcomeId, ledger.outcomes[outcome]? = some true ↔
    outcome < outcomes ∧ ¬ ledger.IsMarked events outcome
  summary : ∀ batch : List (Fin ledger.errands.length),
    Summary.collect (batch.map ledger.errands.get) =
      { total := batch.length
        succeeded := batch.countP fun id : Fin _ => Record.lastVerdict (recordsOn id events)
        failed := batch.flatMap fun id : Fin _ =>
          (recordsOn id events).filterMap Record.failure? }
  append : ∀ first second : List Errand, Summary.collect (first ++ second) =
    { total := (Summary.collect first).total + (Summary.collect second).total
      succeeded := (Summary.collect first).succeeded + (Summary.collect second).succeeded
      failed := (Summary.collect first).failed ++ (Summary.collect second).failed }
  /-- A failure that was recorded counts, whatever was recorded after it. -/
  verdict : ∀ batch : List (Fin ledger.errands.length),
    (Summary.collect (batch.map ledger.errands.get)).isSuccess = true ↔
      ∀ id ∈ batch, Record.lastVerdict (recordsOn id events) = true ∧
        ∀ path, .record id.val (.failure path) ∉ events

/-- A ledger remembers all records, in the order in which they were made, and no summary of its
errands hides a failure. -/
theorem remembers_of_play? (h : (start outcomes).play? events = some ledger) :
    Remembers outcomes events ledger := by
  have ht := traced_of_play? h
  have htells (id : Fin ledger.errands.length) :
      (ledger.errands.get id).TellsOf (recordsOn id events) :=
    ht.tells id _ (List.getElem?_eq_getElem id.isLt)
  refine ⟨ht.tells, ht.outcome, fun batch => ?_, Summary.collect_append, fun batch => ?_⟩
  · rw [Summary.collect_eq, List.length_map, List.countP_map, List.flatMap_map]
    congr 1
    · refine List.countP_congr fun id _ => ?_
      rw [Function.comp_apply, (htells id).success]
    · exact List.flatMap_congr fun id _ => (htells id).failed
  · rw [Summary.isSuccess_iff, List.forall_mem_map]
    refine forall₂_congr fun id _ => ?_
    rw [(htells id).success, (htells id).failed, Record.filterMap_failure?_eq_nil_iff]
    simp only [mem_recordsOn]

/-- A copy that failed and was tried again with success, another one that went well, and somebody
who marks an outcome. -/
def retried : List Event :=
  let file : Path := .ofString "a/x"
  [.add (.ofString "a") file (.ofString "b/x") 1 (some 0),
    .add (.ofString "a") (.ofString "a/y") (.ofString "b/y") 1 none,
    .record 0 (.entry file), .record 0 (.failure file), .record 1 .success,
    .record 0 (.entry file), .record 0 .success, .fail 1]

theorem remembers_retried : ∃ ledger, (start 3).play? retried = some ledger ∧
    ledger.errands.map Errand.success = [true, true] ∧ ledger.outcomes = [false, false, true] ∧
    Remembers 3 retried ledger ∧ (Summary.collect ledger.errands).succeeded = 2 ∧
    (Summary.collect ledger.errands).isSuccess = false := by
  refine ⟨_, rfl, by decide, by decide, remembers_of_play? rfl, by decide, by decide⟩

end Ledger
end TreePool
