import TreePool.Proofs.Pool.Destroy
import TreePool.Proofs.Pool.Load
import TreePool.Proofs.Pool.WakeUp
import TreePool.Proofs.Workshop.Copying

/-! # Crews

A pool that copies files for a workshop owes the copies of the errands that were submitted to it,
and nothing else that changes files or errands. Each of its steps leaves files and errands alone, or
carries out one errand that it owes: `Crewed.takeAll`. Once a call that waits for the pool has
returned, nothing is owed. -/

namespace TreePool

def Effect.work : Effect → Nat
  | .record _ _ => 1
  | .copy _ => 1
  | _ => 0

/-- A step that does not give the pool up and submits nothing that changes files or errands. -/
def Action.IsHarmless (action : Action Effect) : Prop :=
  action ≠ .destroy ∧ action.load Effect.work = 0

instance (action : Action Effect) : Decidable action.IsHarmless :=
  inferInstanceAs (Decidable (_ ∧ _))

namespace Pool

/-! ## Submitting -/

section

variable {ε : Type} {pool : Pool ε} {woken : Option Nat} {workers : List (Phase ε)}

theorem play?_submit (ho : pool.owner = .idle) (hf : pool.shutdown = false) (body : Body ε)
    (hw : Signal true pool.workers woken workers) :
    pool.play? [.call (.submit body), .caller pool.callers.length none,
      .caller pool.callers.length woken] = some
        { pool with
          queue := pool.queue.push ⟨pool.offered, body⟩
          workers
          callers := pool.callers ++ [.finished (.accepted pool.offered)]
          offered := pool.offered + 1
          accepted := pool.accepted ++ [pool.offered] } := by
  let task : Task ε := ⟨pool.offered, body⟩
  let called (caller : Caller ε) : Pool ε :=
    { pool with callers := pool.callers ++ [caller], offered := pool.offered + 1 }
  have hfound (caller : Caller ε) : (called caller).callers[pool.callers.length]? = some caller :=
    List.getElem?_concat_length
  have hset (caller caller' : Caller ε) :
      (called caller).callers.set pool.callers.length caller' = pool.callers ++ [caller'] := by
    simp [called]
  have hcall : pool.step? (.call (.submit body)) = some (called (.offering task)) :=
    step?_eq_some_iff.mpr (.callSubmit (.inl ho))
  have hallow : (called (.offering task)).step? (.caller pool.callers.length none) =
      some (called (.pushing task)) := by
    have ht := Transition.caller (hfound (.offering task)) (.allow hf) .silent
    rw [hset] at ht
    exact step?_eq_some_iff.mpr ht
  have hpush := Transition.caller (hfound (.pushing task)) .push hw
  rw [hset] at hpush
  rw [play?, after?_cons hcall, after?_cons hallow, after?_cons (step?_eq_some_iff.mpr hpush)]
  rfl

end

/-! ## What a pool owes -/

/-- The pool is in use. Queued, in progress or about to be pushed are the copies of the given
errands, and nothing else that changes files or errands. -/
structure Bears (pool : Pool Effect) (pending : List ErrandId) : Prop where
  reachable : pool.Reachable
  idle : pool.owner = .idle
  load : ∀ w ≤ Effect.work,
    pool.load w + pool.incoming w = (pending.map fun id => w (.copy id)).sum

/-- The pool is in use. It owes the copies of the given errands, and nothing else that changes files
or errands. -/
structure Owes (pool : Pool Effect) (pending : List ErrandId) : Prop where
  reachable : pool.Reachable
  idle : pool.owner = .idle
  incoming : pool.incoming Effect.work = 0
  load : ∀ w ≤ Effect.work, pool.load w = (pending.map fun id => w (.copy id)).sum

namespace Bears

variable {pool next : Pool Effect} {pending : List ErrandId} {action : Action Effect}
variable {w : Effect → Nat}

theorem shutdown_eq (h : pool.Bears pending) : pool.shutdown = false := by
  rw [h.reachable.shutdown_eq, h.idle]
  rfl

theorem fail (h : pool.Bears pending) : pool.fail.Bears pending :=
  ⟨h.reachable.step .fail rfl, h.idle, h.load⟩

/-- When nobody is about to push anything, the pool itself owes all that it bears. -/
theorem owes (h : pool.Bears pending) (hi : pool.incoming Effect.work = 0) : pool.Owes pending := by
  refine ⟨h.reachable, h.idle, hi, ?_⟩
  intro w hw
  have hnone := Nat.eq_zero_of_le_zero (hi ▸ incoming_mono hw pool)
  rw [← h.load w hw, hnone, Nat.add_zero]

theorem call (h : pool.Bears pending) {id : ErrandId}
    (hs : pool.step? (.call (.submit (.act (.copy id) .done))) = some next) :
    next.Bears (pending ++ [id]) := by
  refine ⟨h.reachable.step _ hs, idle_of_step? hs h.idle (by simp), ?_⟩
  intro w hw
  have hstep := load_add_of_step? (w := w) hs h.idle h.shutdown_eq
  have hold := h.load w hw
  simp only [performed, effect?, Action.load, Body.load, Option.elim_none, Nat.add_zero] at hstep
  rw [hstep, hold]
  simp

section

variable (h : pool.Bears pending) (ha : action.IsHarmless) (hs : pool.step? action = some next)

include h ha hs

theorem load_add (hw : w ≤ Effect.work) :
    next.load w + next.incoming w + pool.performed w action =
      (pending.map fun id => w (.copy id)).sum := by
  have hstep := load_add_of_step? (w := w) hs h.idle h.shutdown_eq
  have hadded := action.load_mono hw
  rw [ha.2] at hadded
  rw [← h.load w hw]
  omega

theorem of_load {left : List ErrandId} (hl : ∀ w ≤ Effect.work,
    next.load w + next.incoming w = (left.map fun id => w (.copy id)).sum) : next.Bears left :=
  ⟨h.reachable.step action hs, idle_of_step? hs h.idle ha.1, hl⟩

/-- A step performs one of the copies that the pool bears, or nothing that changes files or
errands. -/
theorem step :
    (∃ id ∈ pending, pool.effect? action = some (.copy id) ∧ next.Bears (pending.erase id)) ∨
      (∀ effect, pool.effect? action = some effect → effect.work = 0) ∧ next.Bears pending := by
  by_cases he : ∃ effect, pool.effect? action = some effect ∧ effect.work ≠ 0
  · left
    obtain ⟨effect, he, hwork⟩ := he
    have hperformed (w : Effect → Nat) : pool.performed w action = w effect := by
      rw [performed, he, Option.elim_some]
    -- What is performed weighs something, so it is among what the pool bears.
    have hsum := h.load_add ha hs (w := Pi.single effect 1) fun other => by
      by_cases ho : other = effect
      · subst ho
        simpa using Nat.one_le_iff_ne_zero.mpr hwork
      · simp [ho]
    rw [hperformed, Pi.single_eq_same] at hsum
    obtain ⟨id, hm, hid⟩ : ∃ id ∈ pending, .copy id = effect := by
      by_contra! hno
      have hzero : (pending.map fun id => (Pi.single effect 1 : Effect → Nat) (.copy id)).sum = 0 :=
        List.sum_eq_zero_iff_forall_eq_nat.mpr fun weight hw => by
          obtain ⟨id, hm, rfl⟩ := List.mem_map.mp hw
          exact Pi.single_eq_of_ne (hno id hm) 1
      omega
    subst hid
    refine ⟨id, hm, he, h.of_load ha hs fun w hw => ?_⟩
    have hall := h.load_add ha hs hw
    rw [hperformed, ← List.sum_map_erase _ hm] at hall
    omega
  · right
    have he (effect : Effect) (hp : pool.effect? action = some effect) : effect.work = 0 :=
      by_contra fun hwork => he ⟨effect, hp, hwork⟩
    refine ⟨he, h.of_load ha hs fun w hw => ?_⟩
    have hall := h.load_add ha hs hw
    have hzero : pool.performed w action = 0 := by
      unfold performed
      cases hp : pool.effect? action with
      | none => rfl
      | some effect => exact Nat.eq_zero_of_le_zero ((hw effect).trans (he effect hp).le)
    omega

end

end Bears

namespace Owes

variable {pool next : Pool Effect} {pending : List ErrandId} {action : Action Effect}

theorem nil (hr : pool.Reachable) (ho : pool.owner = .idle) (hi : pool.incoming Effect.work = 0)
    (hl : pool.load Effect.work = 0) : pool.Owes [] :=
  ⟨hr, ho, hi, fun _ hw => Nat.eq_zero_of_le_zero (hl ▸ load_mono hw pool)⟩

theorem bears (h : pool.Owes pending) : pool.Bears pending := by
  refine ⟨h.reachable, h.idle, ?_⟩
  intro w hw
  have hnone := Nat.eq_zero_of_le_zero (h.incoming ▸ incoming_mono hw pool)
  rw [h.load w hw, hnone, Nat.add_zero]

theorem shutdown_eq (h : pool.Owes pending) : pool.shutdown = false := h.bears.shutdown_eq

theorem fail (h : pool.Owes pending) : pool.fail.Owes pending :=
  ⟨h.reachable.step .fail rfl, h.idle, h.incoming, h.load⟩

theorem pending_eq_nil (h : pool.Owes pending) (hi : pool.isIdle = true) : pending = [] := by
  have hload := h.load Effect.work le_rfl
  rw [h.reachable.load_eq_zero hi] at hload
  simpa [Effect.work] using hload.symm

theorem step (h : pool.Owes pending) (ha : action.IsHarmless)
    (hs : pool.step? action = some next) :
    (∃ id ∈ pending, pool.effect? action = some (.copy id) ∧ next.Owes (pending.erase id)) ∨
      (∀ effect, pool.effect? action = some effect → effect.work = 0) ∧ next.Owes pending := by
  have hincoming : next.incoming Effect.work = 0 := by
    have hle := incoming_le_of_step? (w := Effect.work) hs h.idle
    rw [h.incoming, ha.2] at hle
    exact Nat.eq_zero_of_le_zero hle
  rcases h.bears.step ha hs with ⟨id, hm, he, hb⟩ | ⟨he, hb⟩
  · exact .inl ⟨id, hm, he, hb.owes hincoming⟩
  · exact .inr ⟨he, hb.owes hincoming⟩

theorem submit (h : pool.Owes pending) (id : ErrandId) :
    ∃ next, pool.play? [.call (.submit (.act (.copy id) .done)), .caller pool.callers.length none,
        .caller pool.callers.length (pool.workers.findIdx? Phase.isAsleep)] = some next ∧
      next.Owes (pending ++ [id]) ∧
      next.callers.getLast? = some (.finished (.accepted pool.offered)) := by
  obtain ⟨workers, hw⟩ := Signal.exists_of_findIdx? pool.workers
  have hplay := play?_submit h.idle h.shutdown_eq (.act (.copy id) .done) hw
  refine ⟨_, hplay, ⟨h.reachable.play? hplay, h.idle, ?_, fun w hle => ?_⟩, by simp⟩
  · have hold := h.incoming
    simp only [Pool.incoming] at hold ⊢
    simp [hold, Caller.load]
  · have hold := h.load w hle
    have hsum := hw.sum_load (w := w)
    simp only [Pool.load, GatedQueue.load] at hold ⊢
    simp only [GatedQueue.tasks_push, List.map_append, List.sum_append, hsum, List.map_cons,
      List.map_nil, List.sum_cons, List.sum_nil, Body.load]
    omega

end Owes

end Pool

namespace Workshop

/-! ## What steps of a crew do to a workshop -/

/-- A pool of the workshop owes the copies of the given errands, and no other changes. -/
def Crewed (shop : Workshop) (crew : PoolId) (pending : List ErrandId) : Prop :=
  ∃ pool, shop.pool? crew = some pool ∧ pool.Owes pending

/-- The next steps of a crew, of which those are left out that are not possible. -/
def takeAll (shop : Workshop) (crew : PoolId) (actions : List (Action Effect)) : Workshop :=
  actions.foldl (fun shop action => shop.take crew action) shop

def reply? (shop : Workshop) (crew : PoolId) (caller : Nat) : Option Reply := do
  match ← (← shop.pool? crew).callers[caller]? with
  | .finished reply => some reply
  | _ => none

def nextCaller (shop : Workshop) (crew : PoolId) : Nat :=
  ((shop.pool? crew).map (·.callers.length)).getD 0

variable {shop next : Workshop} {crew : PoolId} {pending : List ErrandId} {id : ErrandId}
variable {action : Action Effect} {actions : List (Action Effect)} {caller : Nat}

theorem reply?_eq_some_iff {pool : Pool Effect} {reply : Reply} (hp : shop.pool? crew = some pool) :
    shop.reply? crew caller = some reply ↔ pool.callers[caller]? = some (.finished reply) := by
  unfold reply?
  rw [hp]
  cases hc : pool.callers[caller]? with
  | none => simp [hc]
  | some caller => cases caller <;> simp [hc]

theorem reply?_nextCaller (shop : Workshop) (crew : PoolId) :
    shop.reply? crew (shop.nextCaller crew) = none := by
  unfold reply? nextCaller
  cases shop.pool? crew <;> simp

theorem Crewed.congr (h : Crewed shop crew pending) (hp : next.pools = shop.pools) :
    Crewed next crew pending := by
  obtain ⟨pool, hpool, ho⟩ := h
  exact ⟨pool, by rw [pool?, hp]; exact hpool, ho⟩

section

variable {P : Pool Effect → Prop} (hfail : ∀ pool, P pool → P pool.fail)
variable (h : ∃ pool, shop.pool? crew = some pool ∧ P pool)

include hfail h

theorem exists_pool?_fail (outcome : PoolId) :
    ∃ pool, (shop.fail outcome).pool? crew = some pool ∧ P pool := by
  obtain ⟨pool, hp, hP⟩ := h
  refine ⟨_, pool?_fail outcome hp, ?_⟩
  split_ifs
  · exact hfail pool hP
  · exact hP

theorem exists_pool?_recordAll (id : ErrandId) (records : List Record) :
    ∃ pool, (shop.recordAll id records).pool? crew = some pool ∧ P pool := by
  induction records generalizing shop with
  | nil => exact h
  | cons record records ih =>
    refine @ih (shop.record id record) ?_
    unfold Workshop.record
    split
    · exact h
    · split
      · exact exists_pool?_fail hfail h _
      · exact h

theorem exists_pool?_copy (id : ErrandId) :
    ∃ pool, (shop.copy id).pool? crew = some pool ∧ P pool := by
  cases hid : shop.errands[id]? with
  | none => simpa only [Workshop.copy, hid] using h
  | some errand =>
    simp only [Workshop.copy, hid]
    exact @exists_pool?_recordAll { shop with files := (errand.carryOut shop.files).1 } crew P hfail
      h id _

end

theorem copy_congr {shop' : Workshop} (hf : shop'.files = shop.files)
    (he : shop'.errands = shop.errands) (id : ErrandId) :
    (shop'.copy id).files = (shop.copy id).files ∧
      (shop'.copy id).errands = (shop.copy id).errands := by
  cases hid : shop.errands[id]? with
  | none =>
    have hid' : shop'.errands[id]? = none := he ▸ hid
    simp only [Workshop.copy, hid, hid']
    exact ⟨hf, he⟩
  | some errand =>
    obtain ⟨hfiles, herrands⟩ := copy_eq shop hid
    obtain ⟨hfiles', herrands'⟩ := copy_eq shop' (he ▸ hid)
    rw [hfiles, herrands, hfiles', herrands', hf, he]
    exact ⟨rfl, rfl⟩

theorem take_of_effect {pool moved : Pool Effect} {effect : Effect}
    (hp : shop.pool? crew = some pool) (hs : pool.step? action = some moved)
    (he : pool.effect? action = some effect) :
    shop.take crew action =
      if shop.allows effect then (shop.setPool crew moved).perform crew effect else shop := by
  simp only [take, step?, hp, hs, he, Option.bind_eq_bind, Option.bind_some]
  split_ifs <;> rfl

/-- What one step of a crew has done: errands that it owed, and what is left of them. -/
structure Advances (shop next : Workshop) (crew : PoolId) (pending left : List ErrandId) :
    Prop where
  crewed : Crewed next crew left
  work : left = pending ∧ next.files = shop.files ∧ next.errands = shop.errands ∨
    ∃ id ∈ pending, left = pending.erase id ∧ next.files = (shop.copy id).files ∧
      next.errands = (shop.copy id).errands
  drained : ∀ caller, next.reply? crew caller = some .drained →
    shop.reply? crew caller = some .drained ∨ left = []

theorem Crewed.advances_refl (h : Crewed shop crew pending) :
    Advances shop shop crew pending pending :=
  ⟨h, .inl ⟨rfl, rfl, rfl⟩, fun _ => .inl⟩

/-- A step of a pool advances its crew, if what it does besides answers no caller. -/
theorem Advances.of_step {pool moved : Pool Effect} {left : List ErrandId}
    (hp : shop.pool? crew = some pool) (ho : pool.Owes pending)
    (hs : pool.step? action = some moved)
    (hnext : ∃ pool, next.pool? crew = some pool ∧ pool.Owes left ∧ pool.callers = moved.callers)
    (hwork : left = pending ∧ next.files = shop.files ∧ next.errands = shop.errands ∨
      ∃ id ∈ pending, left = pending.erase id ∧ next.files = (shop.copy id).files ∧
        next.errands = (shop.copy id).errands) : Advances shop next crew pending left := by
  obtain ⟨pool', hp', ho', hc'⟩ := hnext
  refine ⟨⟨pool', hp', ho'⟩, hwork, fun caller hr => ?_⟩
  rw [reply?_eq_some_iff hp', hc'] at hr
  rw [reply?_eq_some_iff hp]
  refine or_iff_not_imp_left.mpr fun hn => ?_
  have hnil := ho.pending_eq_nil (Pool.isIdle_of_step? hs hr hn)
  subst hnil
  rcases hwork with ⟨rfl, -⟩ | ⟨id, hm, -⟩
  · rfl
  · cases hm

theorem Crewed.take (h : Crewed shop crew pending) (ha : action.IsHarmless) :
    ∃ left, Advances shop (shop.take crew action) crew pending left := by
  obtain ⟨pool, hp, ho⟩ := h
  cases hs : pool.step? action with
  | none =>
    rw [take_of_none hp hs]
    exact ⟨pending, advances_refl ⟨pool, hp, ho⟩⟩
  | some moved =>
    have hfail {left : List ErrandId} (pool : Pool Effect)
        (hpool : pool.Owes left ∧ pool.callers = moved.callers) :
        pool.fail.Owes left ∧ pool.fail.callers = moved.callers :=
      ⟨hpool.1.fail, hpool.2⟩
    rcases ho.step ha hs with ⟨id, hm, he, ho'⟩ | ⟨he, ho'⟩
    · rw [take_of_effect hp hs he, if_pos (show shop.allows (.copy id) = true from rfl)]
      exact ⟨_, .of_step hp ho hs
        (exists_pool?_copy hfail ⟨moved, pool?_setPool moved hp, ho', rfl⟩ id)
        (.inr ⟨id, hm, rfl, @copy_congr shop (shop.setPool crew moved) rfl rfl id⟩)⟩
    have hmoved : ∃ pool, (shop.setPool crew moved).pool? crew = some pool ∧
        pool.Owes pending ∧ pool.callers = moved.callers :=
      ⟨moved, pool?_setPool moved hp, ho', rfl⟩
    refine ⟨pending, ?_⟩
    cases heffect : pool.effect? action with
    | none =>
      rw [take_of_step? hp hs heffect]
      exact .of_step hp ho hs hmoved (.inl ⟨rfl, rfl, rfl⟩)
    | some effect =>
      rw [take_of_effect hp hs heffect]
      split_ifs
      · cases effect with
        | record | copy => cases he _ heffect
        | fail =>
          exact .of_step hp ho hs (exists_pool?_fail hfail hmoved crew) (.inl ⟨rfl, rfl, rfl⟩)
        | begin | finish | await => exact .of_step hp ho hs hmoved (.inl ⟨rfl, rfl, rfl⟩)
      · exact advances_refl ⟨pool, hp, ho⟩

theorem Advances.subset {left : List ErrandId} (h : Advances shop next crew pending left) :
    left ⊆ pending := by
  rcases h.work with ⟨rfl, -⟩ | ⟨id, -, rfl, -⟩
  · exact List.Subset.refl _
  · exact List.erase_subset

/-- What a crew does, step by step: `I` says of a workshop what is known of its files and errands
when some of them are still owed. -/
theorem Crewed.takeAll {I : List ErrandId → Workshop → Prop}
    (hsame : ∀ {pending shop next}, I pending shop → next.files = shop.files →
      next.errands = shop.errands → I pending next)
    (hcopy : ∀ {pending shop next id}, I pending shop → id ∈ pending →
      next.files = (shop.copy id).files → next.errands = (shop.copy id).errands →
        I (pending.erase id) next)
    (ha : ∀ action ∈ actions, action.IsHarmless) (h : Crewed shop crew pending)
    (hI : I pending shop) :
    ∃ left ⊆ pending, Crewed (shop.takeAll crew actions) crew left ∧
      I left (shop.takeAll crew actions) ∧
      ∀ caller, (shop.takeAll crew actions).reply? crew caller = some .drained →
        shop.reply? crew caller = some .drained ∨ left = [] := by
  induction actions generalizing shop pending with
  | nil => exact ⟨pending, List.Subset.refl _, h, hI, fun _ => .inl⟩
  | cons action actions ih =>
    obtain ⟨between, hadvances⟩ := h.take (ha action List.mem_cons_self)
    have hI' : I between (shop.take crew action) := by
      rcases hadvances.work with ⟨rfl, hf, he⟩ | ⟨id, hm, rfl, hf, he⟩
      · exact hsame hI hf he
      · exact hcopy hI hm hf he
    obtain ⟨left, hsubset, hleft, hIleft, hdrained⟩ := ih
      (fun other ho => ha other (List.mem_cons_of_mem _ ho)) hadvances.crewed hI'
    refine ⟨left, List.Subset.trans hsubset hadvances.subset, hleft, hIleft, fun caller hr => ?_⟩
    rcases hdrained caller hr with hr | hnil
    · refine (hadvances.drained caller hr).imp_right ?_
      rintro rfl
      exact List.subset_nil.mp hsubset
    · exact .inr hnil

theorem Crewed.takeAll_of_nil (h : Crewed shop crew [])
    (ha : ∀ action ∈ actions, action.IsHarmless) :
    Crewed (shop.takeAll crew actions) crew [] ∧
      (shop.takeAll crew actions).files = shop.files ∧
      (shop.takeAll crew actions).errands = shop.errands := by
  obtain ⟨left, -, hc, ⟨rfl, hf, he⟩, -⟩ := h.takeAll
    (I := fun pending next => pending = [] ∧ next.files = shop.files ∧ next.errands = shop.errands)
    (fun hI hf he => ⟨hI.1, hf.trans hI.2.1, he.trans hI.2.2⟩)
    (fun hI hm => absurd (hI.1 ▸ hm) List.not_mem_nil) ha ⟨rfl, rfl, rfl⟩
  exact ⟨hc, hf, he⟩

theorem submit_of_play? {pool moved : Pool Effect} {body : Body Effect} {ticket : Ticket}
    (hp : shop.pool? crew = some pool)
    (hplay : pool.play? [.call (.submit body), .caller pool.callers.length none,
      .caller pool.callers.length (pool.workers.findIdx? Phase.isAsleep)] = some moved)
    (hlast : moved.callers.getLast? = some (.finished (.accepted ticket))) :
    ∃ next, shop.submit crew body = (next, .ok ()) ∧ next.files = shop.files ∧
      next.errands = shop.errands ∧ next.pools.length = shop.pools.length ∧
      next.pool? crew = some moved := by
  obtain ⟨called, hcall, hplay⟩ := Option.bind_eq_some_iff.mp hplay
  obtain ⟨allowed, hallow, hplay⟩ := Option.bind_eq_some_iff.mp hplay
  obtain ⟨pushed, hpush, hplay⟩ := Option.bind_eq_some_iff.mp hplay
  obtain rfl : pushed = moved := Option.some.inj hplay
  have hcalled := pool?_setPool called hp
  have hallowed := pool?_setPool allowed hcalled
  have hpushed := pool?_setPool pushed hallowed
  have hreply : lastReply? (((shop.setPool crew called).setPool crew allowed).setPool crew pushed)
      crew = some (.accepted ticket) := by
    simp [lastReply?, hpushed, hlast]
  refine ⟨((shop.setPool crew called).setPool crew allowed).setPool crew pushed, ?_, rfl, rfl,
    by simp [setPool], hpushed⟩
  simp only [Workshop.submit, hp, Option.map_some, Option.getD_some, Option.bind_some,
    take_of_step? hp hcall rfl, take_of_step? hcalled hallow rfl, take_of_step? hallowed hpush rfl,
    hreply]

theorem Crewed.submit (h : Crewed shop crew pending) (id : ErrandId) :
    ∃ next, shop.submit crew (.act (.copy id) .done) = (next, .ok ()) ∧
      next.files = shop.files ∧ next.errands = shop.errands ∧
        Crewed next crew (pending ++ [id]) := by
  obtain ⟨pool, hp, ho⟩ := h
  obtain ⟨moved, hplay, ho', hlast⟩ := ho.submit id
  obtain ⟨next, hnext, hf, he, -, hp'⟩ := submit_of_play? hp hplay hlast
  exact ⟨next, hnext, hf, he, moved, hp', ho'⟩

end Workshop

end TreePool
