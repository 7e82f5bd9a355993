import TreePool.Proofs.Pool.ActsOnly
import TreePool.Proofs.Workshop.Crew
import TreePool.Proofs.Workshop.Incidents

/-! # Accounts of attempts

A step of a crew may be an attempt to copy the file of an errand. The attempts that were made tell
all that is recorded on the errands, and whether the outcome of the pool is marked. Each errand that
is no longer owed was attempted once: `Busy.takeAll`.
-/

namespace TreePool

structure Attempt where
  errand : ErrandId
  success : Bool
deriving DecidableEq, Repr

def verdictsOf (attempts : List Attempt) (id : ErrandId) : List Bool :=
  (attempts.filter (·.errand = id)).map Attempt.success

/-- Errands after attempts, by what they were before them. -/
def booked (fresh : List Errand) (attempts : List Attempt) : List Errand :=
  fresh.mapIdx fun id errand => (verdictsOf attempts id).foldl Errand.attempted errand

def Effect.isCopy : Effect → Bool
  | .copy _ => true
  | _ => false

theorem Action.isHarmless_of_isInternal {action : Action Effect} (h : action.isInternal) :
    action.IsHarmless := by
  refine ⟨?_, ?_⟩
  · rintro rfl
    cases h
  · cases action with
    | call => cases h
    | _ => rfl

section

variable {fresh : List Errand} {attempts : List Attempt} {errand : Errand} {id other : ErrandId}
variable {success : Bool}

theorem verdictsOf_concat (attempts : List Attempt) (attempt : Attempt) (id : ErrandId) :
    verdictsOf (attempts ++ [attempt]) id =
      verdictsOf attempts id ++ if attempt.errand = id then [attempt.success] else [] := by
  by_cases h : attempt.errand = id <;> simp [verdictsOf, h]

theorem verdictsOf_eq_nil (h : id ∉ attempts.map Attempt.errand) : verdictsOf attempts id = [] := by
  rw [verdictsOf, List.map_eq_nil_iff, List.filter_eq_nil_iff]
  intro attempt hm he
  exact h (List.mem_map.mpr ⟨attempt, hm, of_decide_eq_true he⟩)

theorem verdictsOf_eq_singleton (h : (attempts.map Attempt.errand).Nodup)
    (hm : ⟨id, success⟩ ∈ attempts) : verdictsOf attempts id = [success] := by
  obtain ⟨front, back, rfl⟩ := List.append_of_mem hm
  simp only [List.map_append, List.map_cons, List.nodup_middle, List.nodup_cons] at h
  have hfront : verdictsOf front id = [] :=
    verdictsOf_eq_nil fun hid => h.1 (List.mem_append_left _ hid)
  have hback : verdictsOf back id = [] :=
    verdictsOf_eq_nil fun hid => h.1 (List.mem_append_right _ hid)
  unfold verdictsOf at hfront hback ⊢
  simp [hfront, hback]

@[simp] theorem length_booked (fresh : List Errand) (attempts : List Attempt) :
    (booked fresh attempts).length = fresh.length := List.length_mapIdx

theorem getElem?_booked (fresh : List Errand) (attempts : List Attempt) (id : ErrandId) :
    (booked fresh attempts)[id]? =
      fresh[id]?.map fun errand => (verdictsOf attempts id).foldl Errand.attempted errand :=
  List.getElem?_mapIdx

theorem booked_concat_attempt (h : (booked fresh attempts)[id]? = some errand)
    (success : Bool) : booked fresh (attempts ++ [⟨id, success⟩]) =
      (booked fresh attempts).set id (errand.attempted success) := by
  apply List.ext_getElem?
  intro other
  rw [getElem?_booked, verdictsOf_concat]
  by_cases hid : id = other
  · subst hid
    rw [List.getElem?_set_self (List.getElem?_eq_some_iff.mp h).1]
    rw [getElem?_booked] at h
    obtain ⟨base, hbase, rfl⟩ := Option.map_eq_some_iff.mp h
    simp [hbase]
  · rw [List.getElem?_set_ne hid, getElem?_booked, if_neg hid, List.append_nil]

theorem booked_concat_errand (h : fresh.length ∉ attempts.map Attempt.errand)
    (errand : Errand) :
    booked (fresh ++ [errand]) attempts = booked fresh attempts ++ [errand] := by
  rw [booked, List.mapIdx_concat, verdictsOf_eq_nil h]
  rfl

end

namespace Workshop

variable {shop next : Workshop} {crew : PoolId} {fresh : List Errand} {attempts : List Attempt}
variable {pending : List ErrandId} {id : ErrandId} {errand : Errand} {action : Action Effect}
variable {actions : List (Action Effect)} {pool moved : Pool Effect}

/-! ## Attempts -/

/-- How an attempt at an errand comes out that is made now. -/
def attempt? (shop : Workshop) (id : ErrandId) : Option Attempt :=
  shop.errands[id]?.map fun errand =>
    ⟨id, (shop.files.copy errand.source errand.destination).isSome⟩

def attemptBy? (shop : Workshop) (crew : PoolId) (action : Action Effect) : Option Attempt := do
  let pool ← shop.pool? crew
  let _ ← pool.step? action
  match ← pool.effect? action with
  | .copy id => shop.attempt? id
  | _ => none

def attemptsBy (shop : Workshop) (crew : PoolId) : List (Action Effect) → List Attempt
  | [] => []
  | action :: rest =>
    (shop.attemptBy? crew action).toList ++ (shop.take crew action).attemptsBy crew rest

theorem attemptBy?_of_none (hp : shop.pool? crew = some pool) (hs : pool.step? action = none) :
    shop.attemptBy? crew action = none := by
  simp [attemptBy?, hp, hs]

theorem attemptBy?_of_effect? (hp : shop.pool? crew = some pool)
    (he : pool.effect? action = none) : shop.attemptBy? crew action = none := by
  cases hs : pool.step? action <;> simp [attemptBy?, hp, hs, he]

theorem attemptBy?_of_copy (hp : shop.pool? crew = some pool) (hs : pool.step? action = some moved)
    (he : pool.effect? action = some (.copy id)) :
    shop.attemptBy? crew action = shop.attempt? id := by
  simp [attemptBy?, hp, hs, he]

theorem outcome_of_copy (hp : shop.pool? crew = some pool) (he : shop.errands[id]? = some errand)
    (ho : errand.outcome = some crew) (hm : (shop.copy id).pool? crew = some moved) :
    moved.outcome =
      (pool.outcome && (shop.files.copy errand.source errand.destination).isSome) := by
  obtain ⟨moved', hm', houtcome, -⟩ := (suffers_copy shop id).pools crew pool hp
  cases hm.symm.trans hm'
  rw [houtcome]
  congr 1
  simp only [copyFailures, he, failures, Errand.carryOut]
  cases shop.files.copy errand.source errand.destination with
  | none => simp [Errand.copyRecords, Record.isFailure, Incident.pool?, ho]
  | some => simp [Errand.copyRecords, Record.isFailure]

/-! ## Accounts -/

/-- The errands of a workshop have what the attempts recorded on them, and each was attempted once
that is no longer to be. -/
structure Accounts (shop : Workshop) (fresh : List Errand) (attempts : List Attempt)
    (pending : List ErrandId) : Prop where
  errands : shop.errands = booked fresh attempts
  once : (attempts.map Attempt.errand ++ pending).Perm (List.range fresh.length)

namespace Accounts

theorem nil (h : shop.errands = []) : Accounts shop [] [] [] := ⟨h, .nil⟩

theorem congr (h : Accounts shop fresh attempts pending) (he : next.errands = shop.errands) :
    Accounts next fresh attempts pending :=
  ⟨he.trans h.errands, h.once⟩

theorem length_eq (h : Accounts shop fresh attempts pending) :
    shop.errands.length = fresh.length := by
  rw [h.errands, length_booked]

theorem lt_of_mem (h : Accounts shop fresh attempts pending) (hm : id ∈ pending) :
    id < fresh.length :=
  List.mem_range.mp (h.once.mem_iff.mp (List.mem_append_right _ hm))

theorem getElem?_of_pending (h : Accounts shop fresh attempts pending) (hm : id ∈ pending) :
    shop.errands[id]? = fresh[id]? := by
  have hnodup := h.once.nodup_iff.mpr List.nodup_range
  have hnot : id ∉ attempts.map Attempt.errand :=
    fun hid => List.disjoint_of_nodup_append hnodup hid hm
  rw [h.errands, getElem?_booked, verdictsOf_eq_nil hnot]
  exact Option.map_id'

theorem carryOut (h : Accounts shop fresh attempts pending) (hm : id ∈ pending)
    (he : fresh[id]? = some errand) (hn : next.errands = (shop.copy id).errands) :
    Accounts next fresh
      (attempts ++ [⟨id, (shop.files.copy errand.source errand.destination).isSome⟩])
      (pending.erase id) := by
  have hid : shop.errands[id]? = some errand := (h.getElem?_of_pending hm).trans he
  refine ⟨?_, ?_⟩
  · rw [hn, (copy_eq shop hid).2, h.errands]
    rw [h.errands] at hid
    exact (booked_concat_attempt hid _).symm
  · refine List.Perm.trans ?_ h.once
    rw [List.map_append, List.append_assoc]
    exact (List.perm_cons_erase hm).symm.append_left _

theorem add (h : Accounts shop fresh attempts pending)
    (hn : next.errands = shop.errands ++ [errand]) :
    Accounts next (fresh ++ [errand]) attempts (pending ++ [fresh.length]) := by
  refine ⟨?_, ?_⟩
  · have hnot : fresh.length ∉ attempts.map Attempt.errand := by
      intro hm
      exact Nat.lt_irrefl _ (List.mem_range.mp (h.once.mem_iff.mp (List.mem_append_left _ hm)))
    rw [hn, h.errands, booked_concat_errand hnot]
  · rw [← List.append_assoc, List.length_append, List.length_singleton, List.range_succ]
    exact h.once.append_right _

/-- When nothing is left to be attempted, each errand has the verdict of its only attempt. -/
theorem getElem?_of_nil (h : Accounts shop fresh attempts []) {success : Bool}
    (hm : ⟨id, success⟩ ∈ attempts) :
    shop.errands[id]? = fresh[id]?.map (Errand.attempted · success) := by
  have hnodup : (attempts.map Attempt.errand).Nodup := by
    have hperm := h.once
    rw [List.append_nil] at hperm
    exact hperm.nodup_iff.mpr List.nodup_range
  rw [h.errands, getElem?_booked, verdictsOf_eq_singleton hnodup hm]
  rfl

end Accounts

/-! ## Crews -/

/-- The pool of a workshop bears the errands that are still to be attempted, and runs nothing but
copies. Its outcome is marked exactly when an attempt has failed. -/
structure Busy (shop : Workshop) (crew : PoolId) (fresh : List Errand) (attempts : List Attempt)
    (pending : List ErrandId) : Prop where
  accounts : Accounts shop fresh attempts pending
  bound : ∀ errand ∈ fresh, errand.outcome = some crew
  serves : ∃ pool, shop.pool? crew = some pool ∧ pool.Bears pending ∧
    pool.ActsOnly Effect.isCopy ∧ pool.outcome = attempts.all Attempt.success

namespace Busy

/-- Only the pools and the errands of a workshop tell what its crew is at. -/
theorem congr (h : Busy shop crew fresh attempts pending) (hp : next.pools = shop.pools)
    (he : next.errands = shop.errands) : Busy next crew fresh attempts pending := by
  obtain ⟨pool, hpool, hserves⟩ := h.serves
  exact ⟨h.accounts.congr he, h.bound, pool, by rw [pool?, hp]; exact hpool, hserves⟩

theorem take_copy (h : Busy shop crew fresh attempts pending) (hp : shop.pool? crew = some pool)
    (hs : pool.step? action = some moved) (he : pool.effect? action = some (.copy id))
    (hm : id ∈ pending) (hb : moved.Bears (pending.erase id)) (ht : moved.ActsOnly Effect.isCopy)
    (ho : moved.outcome = attempts.all Attempt.success) :
    Busy (shop.take crew action) crew fresh
      (attempts ++ (shop.attemptBy? crew action).toList) (pending.erase id) := by
  have hmoved := pool?_setPool moved hp
  obtain ⟨errand, hid⟩ : ∃ errand, fresh[id]? = some errand :=
    ⟨_, List.getElem?_eq_getElem (h.accounts.lt_of_mem hm)⟩
  have hid' : shop.errands[id]? = some errand := (h.accounts.getElem?_of_pending hm).trans hid
  rw [take_of_effect hp hs he, if_pos (show shop.allows (.copy id) = true from rfl),
    attemptBy?_of_copy hp hs he, attempt?, hid']
  obtain ⟨after, hafter, hb', ht'⟩ := exists_pool?_copy
    (fun pool (hpool : pool.Bears (pending.erase id) ∧ pool.ActsOnly Effect.isCopy) =>
      ⟨hpool.1.fail, ⟨hpool.2.queue, hpool.2.workers, hpool.2.callers⟩⟩)
    ⟨moved, hmoved, hb, ht⟩ id
  refine ⟨h.accounts.carryOut hm hid ?_, h.bound, after, hafter, hb', ht', ?_⟩
  · exact (@copy_congr shop (shop.setPool crew moved) rfl rfl id).2
  · have hset : (shop.setPool crew moved).errands[id]? = some errand := hid'
    rw [outcome_of_copy hmoved hset (h.bound errand (List.mem_of_getElem? hid)) hafter, ho]
    simp [setPool]

/-- A step of the crew attempts an errand that it bears, or changes nothing but the pool. -/
theorem take (h : Busy shop crew fresh attempts pending) (ha : action.IsHarmless)
    (ht : action.actsOnly Effect.isCopy) :
    ∃ left, Busy (shop.take crew action) crew fresh
      (attempts ++ (shop.attemptBy? crew action).toList) left := by
  obtain ⟨pool, hp, ho, honly, houtcome⟩ := h.serves
  cases hs : pool.step? action with
  | none =>
    rw [take_of_none hp hs, attemptBy?_of_none hp hs, Option.toList_none, List.append_nil]
    exact ⟨pending, h⟩
  | some moved =>
    have honly' := honly.step ht hs
    have houtcome' := (honly.outcome_eq ht hs).trans houtcome
    rcases ho.step ha hs with ⟨id, hm, he, ho'⟩ | ⟨he, ho'⟩
    · exact ⟨_, h.take_copy hp hs he hm ho' honly' houtcome'⟩
    · -- A body that only copies files does nothing here.
      have hnone : pool.effect? action = none := by
        cases heffect : pool.effect? action with
        | none => rfl
        | some effect =>
          have hcopy := honly.effect heffect
          have hwork := he effect heffect
          cases effect with
          | copy => cases hwork
          | _ => cases hcopy
      rw [take_of_step? hp hs hnone, attemptBy?_of_effect? hp hnone, Option.toList_none,
        List.append_nil]
      exact ⟨pending, h.accounts.congr rfl, h.bound, moved, pool?_setPool moved hp, ho', honly',
        houtcome'⟩

theorem takeAll (h : Busy shop crew fresh attempts pending)
    (ha : ∀ action ∈ actions, action.IsHarmless ∧ action.actsOnly Effect.isCopy) :
    ∃ left, Busy (shop.takeAll crew actions) crew fresh
      (attempts ++ shop.attemptsBy crew actions) left := by
  induction actions generalizing shop attempts pending with
  | nil =>
    rw [attemptsBy, List.append_nil]
    exact ⟨pending, h⟩
  | cons action actions ih =>
    obtain ⟨hharmless, honly⟩ := ha action List.mem_cons_self
    obtain ⟨between, hbetween⟩ := h.take hharmless honly
    rw [attemptsBy, ← List.append_assoc]
    exact ih hbetween fun other ho => ha other (List.mem_cons_of_mem _ ho)

/-- Nothing is left to be attempted once a call that waits for the pool has returned, if nobody was
about to push anything when it was made. -/
theorem of_drained {caller : Nat} {left : List ErrandId}
    (h : Busy shop crew fresh attempts pending)
    (hl : Busy (shop.takeAll crew actions) crew fresh
      (attempts ++ shop.attemptsBy crew actions) left)
    (hq : (shop.pool? crew).map Pool.isQuiet = some true)
    (ha : ∀ action ∈ actions, action.IsHarmless) (hn : shop.reply? crew caller = none)
    (hr : (shop.takeAll crew actions).reply? crew caller = some .drained) : left = [] := by
  obtain ⟨pool, hp, hb, -⟩ := h.serves
  rw [hp, Option.map_some] at hq
  have hcrewed : Crewed shop crew pending :=
    ⟨pool, hp, hb.owes (Pool.incoming_of_isQuiet (Option.some.inj hq))⟩
  obtain ⟨owed, -, ⟨pool', hp', howes⟩, -, hdrained⟩ :=
    hcrewed.takeAll (I := fun _ _ => True) (fun _ _ _ => trivial) (fun _ _ _ _ => trivial) ha
      trivial
  obtain ⟨pool'', hp'', hb', -⟩ := hl.serves
  cases hp'.symm.trans hp''
  have hnil : owed = [] := (hdrained caller hr).resolve_left (by rw [hn]; exact nofun)
  subst hnil
  have hload := hb'.load Effect.work le_rfl
  rw [howes.load Effect.work le_rfl, howes.incoming] at hload
  simpa [Effect.work] using hload.symm

theorem call (h : Busy shop crew fresh attempts pending) (hb : errand.outcome = some crew) :
    Busy
      ((shop.addErrand errand).take crew
        (.call (.submit (.act (.copy shop.errands.length) .done))))
      crew (fresh ++ [errand]) attempts (pending ++ [fresh.length]) := by
  obtain ⟨pool, hp, hbears, honly, houtcome⟩ := h.serves
  have hadded : (shop.addErrand errand).pool? crew = some pool := hp
  have hbound : ∀ other ∈ fresh ++ [errand], other.outcome = some crew := by
    intro other hm
    rcases List.mem_append.mp hm with hm | hm
    · exact h.bound other hm
    · exact List.mem_singleton.mp hm ▸ hb
  obtain ⟨next, hs⟩ : ∃ next,
      pool.step? (.call (.submit (.act (.copy shop.errands.length) .done))) = some next :=
    ⟨_, Pool.step?_eq_some_iff.mpr (.callSubmit (.inl hbears.idle))⟩
  have hcall : (Action.call (.submit (.act (.copy shop.errands.length) .done))).actsOnly
      Effect.isCopy := rfl
  rw [take_of_step? hadded hs rfl]
  refine ⟨h.accounts.add rfl, hbound, next, pool?_setPool next hadded, ?_, honly.step hcall hs,
    (honly.outcome_eq hcall hs).trans houtcome⟩
  rw [← h.accounts.length_eq]
  exact hbears.call hs

end Busy

/-- A pool that has nothing to do outside takes its steps by itself. -/
theorem takeAll_of_actsOnly (hp : shop.pool? crew = some pool) (ht : pool.ActsOnly fun _ => false)
    (ha : ∀ action ∈ actions, action.actsOnly fun _ => false) :
    ∃ taken moved, taken ⊆ actions ∧ pool.play? taken = some moved ∧
      shop.takeAll crew actions = shop.setPool crew moved := by
  induction actions generalizing shop pool with
  | nil =>
    refine ⟨[], pool, List.Subset.refl _, rfl, ?_⟩
    obtain ⟨hlt, hget⟩ := List.getElem?_eq_some_iff.mp hp
    rw [setPool, ← hget, List.set_getElem_self hlt]
    rfl
  | cons action actions ih =>
    have hrest := fun other ho => ha other (List.mem_cons_of_mem action ho)
    have htake : shop.takeAll crew (action :: actions) =
        (shop.take crew action).takeAll crew actions := rfl
    rw [htake]
    cases hs : pool.step? action with
    | none =>
      rw [take_of_none hp hs]
      obtain ⟨taken, moved, hsubset, hplay, heq⟩ := ih hp ht hrest
      exact ⟨taken, moved, List.subset_cons_of_subset _ hsubset, hplay, heq⟩
    | some between =>
      have hnone : pool.effect? action = none := by
        cases he : pool.effect? action with
        | none => rfl
        | some effect => cases ht.effect he
      rw [take_of_step? hp hs hnone]
      obtain ⟨taken, moved, hsubset, hplay, heq⟩ := ih (pool?_setPool between hp)
        (ht.step (ha action List.mem_cons_self) hs) hrest
      refine ⟨action :: taken, moved, List.cons_subset_cons action hsubset, ?_, ?_⟩
      · exact (after?_cons hs).trans hplay
      · rw [heq, setPool, setPool, setPool, List.set_set]

end Workshop
end TreePool
