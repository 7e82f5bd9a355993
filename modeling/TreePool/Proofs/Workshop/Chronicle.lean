import TreePool.Proofs.Workshop.Incidents

/-! # The history of a workshop

What a workshop shows of its failures is what its history of incidents says: an outcome is marked
exactly when an incident concerned it, each errand lists the failures that were recorded on it, and
each panic of a pool was handled or is in the hands of a worker: `Workshop.Chronicle.play?`.
-/

namespace TreePool
namespace Workshop

variable {shop next : Workshop} {pool moved : Pool Effect} {id : PoolId} {move : Move}
variable {moves : List Move} {errand : Errand} {history : List Incident}

/-! ## Where incidents happen -/

def HasHappenedIn (shop : Workshop) : Incident → Prop
  | .told id => id < shop.pools.length
  | .recorded id outcome => ∃ errand, shop.errands[id]? = some errand ∧ errand.outcome = outcome
  | .handled id _ _ => id < shop.pools.length

theorem hasHappenedIn_of_mem_failures {id : ErrandId} {records : List Record}
    {incident : Incident} (hm : incident ∈ shop.failures id records) :
    shop.HasHappenedIn incident := by
  unfold failures at hm
  cases he : shop.errands[id]? with
  | none =>
    rw [he] at hm
    cases hm
  | some errand =>
    rw [he] at hm
    obtain ⟨record, -, rfl⟩ := List.mem_map.mp hm
    exact ⟨errand, he, rfl⟩

theorem hasHappenedIn_of_mem_copyFailures {id : ErrandId} {incident : Incident}
    (hm : incident ∈ shop.copyFailures id) : shop.HasHappenedIn incident := by
  unfold copyFailures at hm
  split at hm
  · cases hm
  · exact hasHappenedIn_of_mem_failures hm

theorem hasHappenedIn_of_mem_turnIncidents {turn : Turn} {incident : Incident}
    (hm : incident ∈ shop.turnIncidents turn) : shop.HasHappenedIn incident := by
  unfold turnIncidents at hm
  cases hp : shop.pool? turn.pool with
  | none =>
    rw [hp] at hm
    cases hm
  | some pool =>
    have hlt : turn.pool < shop.pools.length := (List.getElem?_eq_some_iff.mp hp).1
    rw [hp] at hm
    rcases List.mem_append.mp hm with hm | hm
    · rcases List.mem_append.mp hm with hm | hm
      · split_ifs at hm
        · cases List.mem_singleton.mp hm
          exact hlt
        · cases hm
      · obtain ⟨entry, -, rfl⟩ := List.mem_map.mp hm
        exact hlt
    · cases he : pool.effect? turn.action with
      | none =>
        rw [he] at hm
        cases hm
      | some effect =>
        rw [he] at hm
        cases effect with
        | fail =>
          cases List.mem_singleton.mp hm
          exact hlt
        | record => exact hasHappenedIn_of_mem_failures hm
        | copy => exact hasHappenedIn_of_mem_copyFailures hm
        | begin | finish | await => cases hm

theorem hasHappenedIn_of_mem {incident : Incident} (hm : incident ∈ shop.moveIncidents move) :
    shop.HasHappenedIn incident := by
  cases move with
  | turn turn => exact hasHappenedIn_of_mem_turnIncidents hm
  | record => exact hasHappenedIn_of_mem_failures hm
  | copy => exact hasHappenedIn_of_mem_copyFailures hm
  | _ => cases hm

theorem Suffers.hasHappenedIn {incidents : List Incident} {incident : Incident}
    (h : Suffers shop next incidents) (hi : shop.HasHappenedIn incident) :
    next.HasHappenedIn incident := by
  have hpool (id : PoolId) (hlt : id < shop.pools.length) : id < next.pools.length := by
    obtain ⟨pool, hp, -⟩ := h.pools id _ (List.getElem?_eq_getElem hlt)
    exact (List.getElem?_eq_some_iff.mp hp).1
  cases incident with
  | told id | handled id => exact hpool id hi
  | recorded id =>
    obtain ⟨errand, he, rfl⟩ := hi
    obtain ⟨errand', he', ho, -⟩ := h.errands id errand he
    exact ⟨errand', he', ho⟩

/-! ## What is new -/

theorem eq_some_or_of_getElem?_concat {α : Type} {l : List α} {a b : α} {i : Nat}
    (h : (l ++ [a])[i]? = some b) : l[i]? = some b ∨ i = l.length ∧ b = a := by
  rcases Nat.lt_trichotomy i l.length with hlt | rfl | hgt
  · rw [List.getElem?_append_left hlt] at h
    exact .inl h
  · rw [List.getElem?_concat_length] at h
    exact .inr ⟨rfl, (Option.some.inj h).symm⟩
  · have hlength : (l ++ [a]).length ≤ i := by
      rw [List.length_append]
      exact hgt
    rw [List.getElem?_eq_none hlength] at h
    cases h

def SameSize (shop next : Workshop) : Prop :=
  next.pools.length = shop.pools.length ∧ next.errands.length = shop.errands.length

theorem sameSize_record (shop : Workshop) (id : ErrandId) (record : Record) :
    SameSize shop (shop.record id record) := by
  unfold Workshop.record
  split
  · exact ⟨rfl, rfl⟩
  · split <;> simp [SameSize, Workshop.fail]

theorem sameSize_recordAll (shop : Workshop) (id : ErrandId) (records : List Record) :
    SameSize shop (shop.recordAll id records) := by
  induction records generalizing shop with
  | nil => exact ⟨rfl, rfl⟩
  | cons record records ih =>
    have hfirst := sameSize_record shop id record
    have hlater := ih (shop.record id record)
    exact ⟨hlater.1.trans hfirst.1, hlater.2.trans hfirst.2⟩

theorem sameSize_copy (shop : Workshop) (id : ErrandId) : SameSize shop (shop.copy id) := by
  unfold Workshop.copy
  split
  · exact ⟨rfl, rfl⟩
  · exact sameSize_recordAll _ id _

theorem sameSize_perform (shop : Workshop) (pool : PoolId) (effect : Effect) :
    SameSize shop (shop.perform pool effect) := by
  cases effect with
  | record id record => exact sameSize_record shop id record
  | copy id => exact sameSize_copy shop id
  | fail => simp [SameSize, perform, Workshop.fail]
  | begin | finish | await => exact ⟨rfl, rfl⟩

theorem sameSize_step? {turn : Turn} (hs : shop.step? turn = some next) : SameSize shop next := by
  obtain ⟨pool, hp, hs⟩ := Option.bind_eq_some_iff.mp hs
  obtain ⟨moved, hmoved, hs⟩ := Option.bind_eq_some_iff.mp hs
  have hset : SameSize shop (shop.setPool turn.pool moved) := by simp [SameSize, setPool]
  split at hs
  · cases hs
    exact hset
  · split_ifs at hs
    cases hs
    have hperform := sameSize_perform (shop.setPool turn.pool moved) turn.pool
    exact ⟨(hperform _).1.trans hset.1, (hperform _).2.trans hset.2⟩

/-! ## The whole history -/

/-- What the history of a workshop says of its outcomes. An outcome is marked exactly when an
incident concerned it; the failures listed on an errand are those that were recorded while it was
bound to its outcome; and a panic either was handled or is in the hands of a worker. -/
structure Chronicle (history : List Incident) (shop : Workshop) : Prop where
  outcome : ∀ id pool, shop.pool? id = some pool →
    (pool.outcome = false ↔ ∃ incident ∈ history, incident.pool? = some id)
  failed : ∀ id errand, shop.errands[id]? = some errand →
    errand.failed.length = history.count (.recorded id errand.outcome)
  panics : ∀ id pool, shop.pool? id = some pool → pool.panics =
    history.countP (Incident.isHandledIn id) + pool.workers.countP Phase.isMarking
  happened : ∀ incident ∈ history, shop.HasHappenedIn incident
  bound : ∀ (id : ErrandId) errand outcome, shop.errands[id]? = some errand →
    errand.outcome = some outcome → outcome < shop.pools.length

namespace Chronicle

theorem start (files : FileSystem) : Chronicle [] { files } := by
  refine ⟨?_, ?_, ?_, ?_, ?_⟩
  · intro id pool hp
    cases hp
  · intro id errand he
    cases he
  · intro id pool hp
    cases hp
  · intro incident hm
    cases hm
  · intro id errand outcome he
    cases he

theorem lt_of_pool? (h : Chronicle history shop) {incident : Incident} (hm : incident ∈ history)
    (hid : incident.pool? = some id) : id < shop.pools.length := by
  have hi := h.happened incident hm
  cases incident with
  | told pool | handled pool =>
    cases hid
    exact hi
  | recorded errand outcome =>
    obtain ⟨errand', he, rfl⟩ := hi
    exact h.bound _ errand' id he hid

theorem of_suffers {incidents : List Incident} (h : Chronicle history shop)
    (hs : Suffers shop next incidents) (hsize : SameSize shop next)
    (hi : ∀ incident ∈ incidents, shop.HasHappenedIn incident) :
    Chronicle (history ++ incidents) next := by
  -- What there is now was there before.
  have hpool (id : PoolId) (pool' : Pool Effect) (hp : next.pool? id = some pool') :
      ∃ pool, shop.pool? id = some pool ∧
        pool'.outcome = (pool.outcome && !incidents.any (·.pool? == some id)) ∧
        pool'.panics + pool.workers.countP Phase.isMarking =
          pool.panics + pool'.workers.countP Phase.isMarking +
            incidents.countP (Incident.isHandledIn id) := by
    have hlt : id < shop.pools.length := hsize.1 ▸ (List.getElem?_eq_some_iff.mp hp).1
    obtain ⟨pool, hpool, heq⟩ := hs.pools id _ (List.getElem?_eq_getElem hlt)
    cases hp.symm.trans hpool
    exact ⟨_, List.getElem?_eq_getElem hlt, heq⟩
  have herrand (id : ErrandId) (errand' : Errand) (he : next.errands[id]? = some errand') :
      ∃ errand, shop.errands[id]? = some errand ∧ errand'.outcome = errand.outcome ∧
        errand'.failed.length =
          errand.failed.length + incidents.count (.recorded id errand.outcome) := by
    have hlt : id < shop.errands.length := hsize.2 ▸ (List.getElem?_eq_some_iff.mp he).1
    obtain ⟨errand, herrand, heq⟩ := hs.errands id _ (List.getElem?_eq_getElem hlt)
    cases he.symm.trans herrand
    exact ⟨_, List.getElem?_eq_getElem hlt, heq⟩
  refine ⟨?_, ?_, ?_, ?_, ?_⟩
  · intro id pool' hp
    obtain ⟨pool, hold, ho, -⟩ := hpool id pool' hp
    have hbefore := h.outcome id pool hold
    rw [ho, Bool.and_eq_false_iff, hbefore, Bool.not_eq_false', List.any_eq_true]
    simp only [List.mem_append, or_and_right, exists_or, beq_iff_eq]
  · intro id errand' he
    obtain ⟨errand, hold, ho, hf⟩ := herrand id errand' he
    rw [hf, h.failed id errand hold, ho, List.count_append]
  · intro id pool' hp
    obtain ⟨pool, hold, -, hpanics⟩ := hpool id pool' hp
    have hbefore := h.panics id pool hold
    rw [List.countP_append]
    omega
  · intro incident hm
    rcases List.mem_append.mp hm with hm | hm
    · exact hs.hasHappenedIn (h.happened incident hm)
    · exact hs.hasHappenedIn (hi incident hm)
  · intro id errand' outcome he ho'
    obtain ⟨errand, hold, ho, -⟩ := herrand id errand' he
    rw [hsize.1]
    exact h.bound id errand outcome hold (ho ▸ ho')

theorem found (h : Chronicle history shop) (size : Nat) (fragile : Bool) :
    Chronicle history (shop.addPool (.start size fragile)) := by
  have hnew {id : PoolId} {pool : Pool Effect}
      (hp : (shop.addPool (.start size fragile)).pool? id = some pool) :
      shop.pool? id = some pool ∨ id = shop.pools.length ∧ pool = .start size fragile := by
    exact eq_some_or_of_getElem?_concat hp
  -- Nothing has happened yet to a pool that is new.
  have hfresh {incident : Incident} (hm : incident ∈ history) :
      incident.pool? ≠ some shop.pools.length := by
    intro hid
    exact Nat.lt_irrefl _ (h.lt_of_pool? hm hid)
  refine ⟨?_, h.failed, ?_, ?_, ?_⟩
  · intro id pool hp
    rcases hnew hp with hp | ⟨rfl, rfl⟩
    · exact h.outcome id pool hp
    · constructor
      · intro ho
        cases ho
      · rintro ⟨incident, hm, hid⟩
        exact absurd hid (hfresh hm)
  · intro id pool hp
    rcases hnew hp with hp | ⟨rfl, rfl⟩
    · exact h.panics id pool hp
    · apply Eq.symm
      apply Nat.add_eq_zero_iff.mpr
      refine ⟨List.countP_eq_zero.mpr ?_, rfl⟩
      intro incident hm hin
      apply hfresh hm
      cases incident with
      | handled => exact congrArg some (beq_iff_eq.mp hin)
      | told | recorded => cases hin
  · intro incident hm
    have hi := h.happened incident hm
    cases incident with
    | told | handled => exact Nat.lt_of_lt_of_le hi (by simp [addPool])
    | recorded => exact hi
  · intro id errand outcome he ho
    exact Nat.lt_of_lt_of_le (h.bound id errand outcome he ho) (by simp [addPool])

theorem add (h : Chronicle history shop) (hfailed : errand.failed = [])
    (hb : ∀ outcome, errand.outcome = some outcome → outcome < shop.pools.length) :
    Chronicle history (shop.addErrand errand) := by
  have hnew {id : ErrandId} {errand' : Errand}
      (he : (shop.addErrand errand).errands[id]? = some errand') :
      shop.errands[id]? = some errand' ∨ id = shop.errands.length ∧ errand' = errand := by
    exact eq_some_or_of_getElem?_concat he
  refine ⟨h.outcome, ?_, h.panics, ?_, ?_⟩
  · intro id errand' he
    rcases hnew he with he | ⟨rfl, rfl⟩
    · exact h.failed id errand' he
    · rw [hfailed]
      apply Eq.symm
      apply List.count_eq_zero.mpr
      intro hm
      obtain ⟨other, ho, -⟩ := h.happened _ hm
      exact Nat.lt_irrefl _ (List.getElem?_eq_some_iff.mp ho).1
  · intro incident hm
    have hi := h.happened incident hm
    cases incident with
    | told | handled => exact hi
    | recorded id =>
      obtain ⟨other, ho, heq⟩ := hi
      refine ⟨other, ?_, heq⟩
      rw [addErrand, List.getElem?_append_left (List.getElem?_eq_some_iff.mp ho).1, ho]
  · intro id errand' outcome he ho
    rcases hnew he with he | ⟨rfl, rfl⟩
    · exact h.bound id errand' outcome he ho
    · exact hb outcome ho

theorem move? (h : Chronicle history shop) (hm : shop.move? move = some next) :
    Chronicle (history ++ shop.moveIncidents move) next := by
  have hsuffers := suffers_move? hm
  have hi (incident : Incident) (hmem : incident ∈ shop.moveIncidents move) :
      shop.HasHappenedIn incident := hasHappenedIn_of_mem hmem
  cases move with
  | turn turn => exact h.of_suffers hsuffers (sameSize_step? hm) hi
  | found size fragile =>
    simp only [Workshop.move?] at hm
    split_ifs at hm
    cases hm
    rw [moveIncidents, List.append_nil]
    exact h.found size fragile
  | add directory source destination level outcome =>
    simp only [Workshop.move?] at hm
    split at hm
    next errand hmade =>
      obtain ⟨-, -, -, rfl⟩ := Errand.make_eq_ok_iff.mp hmade
      split_ifs at hm with hb
      cases hm
      rw [moveIncidents, List.append_nil]
      apply h.add rfl
      intro id ho
      cases ho
      simpa using hb
    next => cases hm
  | record id record =>
    cases hm
    exact h.of_suffers hsuffers (sameSize_record shop id record) hi
  | copy id =>
    cases hm
    exact h.of_suffers hsuffers (sameSize_copy shop id) hi
  | release | change =>
    cases hm
    exact h.of_suffers hsuffers ⟨rfl, rfl⟩ hi

theorem play? (h : Chronicle history shop) (hp : shop.play? moves = some next) :
    Chronicle (history ++ shop.incidents moves) next := by
  induction moves generalizing history shop with
  | nil =>
    cases Option.some.inj hp
    rw [incidents, List.append_nil]
    exact h
  | cons move moves ih =>
    obtain ⟨between, hm, hrest⟩ := after?_cons_eq_some_iff.mp hp
    rw [incidents_cons hm, ← List.append_assoc]
    exact ih (h.move? hm) hrest

end Chronicle

end Workshop
end TreePool
