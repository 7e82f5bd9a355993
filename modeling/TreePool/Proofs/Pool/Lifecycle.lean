import TreePool.Proofs.Pool.Counters

/-! # The life of a pool

What the owner's next step says about everybody else: whether the shutdown flag is up, what a caller
may be doing, and how many workers there are. Each law holds in every reachable state and rests on
those before it.
-/

namespace TreePool

variable {ε : Type}

def Caller.isPushing : Caller ε → Bool
  | .pushing _ => true
  | _ => false

@[simp] theorem Caller.isPushing_notify (caller : Caller ε) :
    caller.notify.isPushing = caller.isPushing := by
  cases caller <;> rfl

@[simp] theorem Caller.isFinished_notify (caller : Caller ε) :
    caller.notify.isFinished = caller.isFinished := by
  cases caller <;> rfl

namespace Owner

def hasRaised : Owner → Bool
  | .watching | .sleeping _ | .joining _ | .clearing | .closing | .closed | .unwound => true
  | _ => false

def hasWatched : Owner → Bool
  | .joining _ | .clearing | .closing | .closed | .unwound => true
  | _ => false

def hasJoined : Owner → Nat → Bool
  | .joining worker, id => id < worker
  | .clearing, _ | .closing, _ | .closed, _ | .unwound, _ => true
  | _, _ => false

def hasCleared : Owner → Bool
  | .closing | .closed | .unwound => true
  | _ => false

/-- What a caller may be doing. Nobody calls before the pool is built; the owner gives the pool up
when all calls are over, and a call that comes later pushes nothing. -/
def admits : Owner → Caller ε → Bool
  | .spawning, _ | .gathering, _ | .announcing, _ | .lamenting, _ => false
  | .idle, _ => true
  | .closed, caller | .unwound, caller => !caller.isPushing
  | _, caller => caller.isFinished

def isContent : Owner → Bool
  | .spawning | .gathering | .announcing | .idle => true
  | _ => false

@[simp] theorem isContent_rouse (owner : Owner) : owner.rouse.isContent = owner.isContent := by
  cases owner <;> rfl

@[simp] theorem hasRaised_rouse (owner : Owner) : owner.rouse.hasRaised = owner.hasRaised := by
  cases owner <;> rfl

@[simp] theorem hasWatched_rouse (owner : Owner) : owner.rouse.hasWatched = owner.hasWatched := by
  cases owner <;> rfl

@[simp] theorem hasJoined_rouse (owner : Owner) (id : Nat) :
    owner.rouse.hasJoined id = owner.hasJoined id := by
  cases owner <;> rfl

@[simp] theorem hasCleared_rouse (owner : Owner) : owner.rouse.hasCleared = owner.hasCleared := by
  cases owner <;> rfl

@[simp] theorem admits_rouse (owner : Owner) (caller : Caller ε) :
    owner.rouse.admits caller = owner.admits caller := by
  cases owner <;> simp [rouse, admits]

@[simp] theorem admits_notify (owner : Owner) (caller : Caller ε) :
    owner.admits caller.notify = owner.admits caller := by
  cases owner <;> simp [admits]

theorem hasRaised_of_hasWatched {owner : Owner} (h : owner.hasWatched) : owner.hasRaised := by
  cases owner <;> first | rfl | cases h

theorem hasRaised_of_hasCleared {owner : Owner} (h : owner.hasCleared) : owner.hasRaised := by
  cases owner <;> first | rfl | cases h

theorem hasWatched_of_hasCleared {owner : Owner} (h : owner.hasCleared) : owner.hasWatched := by
  cases owner <;> first | rfl | cases h

theorem hasJoined_of_hasCleared {owner : Owner} (h : owner.hasCleared) (id : Nat) :
    owner.hasJoined id := by
  cases owner <;> first | rfl | cases h

theorem eq_closed_or_of_isDone {owner : Owner} (h : owner.isDone) :
    owner = .closed ∨ owner = .unwound := by
  cases owner <;> first | exact .inl rfl | exact .inr rfl | cases h

theorem admits_of_isDone {owner : Owner} (h : owner.isDone) (caller : Caller ε) :
    owner.admits caller = !caller.isPushing := by
  rcases eq_closed_or_of_isDone h with rfl | rfl <;> rfl

theorem isDone_of_eq_closed {owner : Owner} (h : owner = .closed) : owner.isDone := by
  rw [h]
  rfl

theorem hasCleared_of_isDone {owner : Owner} (h : owner.isDone) : owner.hasCleared := by
  cases owner <;> first | rfl | cases h

@[simp] theorem rouse_eq_unwound_iff {owner : Owner} :
    owner.rouse = .unwound ↔ owner = .unwound := by
  cases owner <;> simp [rouse]

theorem isPushing_of_admits {owner : Owner} {caller : Caller ε} (h : owner.hasRaised)
    (ha : owner.admits caller) : caller.isPushing = false := by
  cases caller with
  | pushing =>
    cases owner <;> simp_all [hasRaised, admits, Caller.isFinished, Caller.isPushing]
  | _ => rfl

end Owner

def Phase.hasLeft : Phase ε → Bool
  | .leaving | .parting | .ended | .crashed => true
  | _ => false

namespace Pool

variable {pool next after : Pool ε} {action : Action ε} {id : Nat} {phase phase' : Phase ε}
variable {signals : Bool} {woken : Option Nat} {workers workers' : List (Phase ε)}
variable {caller caller' : Caller ε}

/-! ## What a step leaves alone -/

theorem WorkerStep.shutdown_eq (h : WorkerStep pool id phase phase' signals after) :
    after.shutdown = pool.shutdown := by
  cases h <;> rfl

theorem WorkerStep.owner_eq (h : WorkerStep pool id phase phase' signals after) :
    after.owner = pool.owner ∨ after.owner = pool.owner.rouse := by
  cases h with
  | leave => exact .inr rfl
  | _ => exact .inl rfl

/-- What a notification does not change about the owner, no worker changes. -/
theorem WorkerStep.test_owner_eq (h : WorkerStep pool id phase phase' signals after)
    {test : Owner → Bool} (ht : ∀ owner : Owner, test owner.rouse = test owner) :
    test after.owner = test pool.owner := by
  rcases h.owner_eq with he | he
  · rw [he]
  · rw [he, ht]

theorem WorkerStep.owner_ne_unwound (h : WorkerStep pool id phase phase' signals after)
    (ho : pool.owner ≠ .unwound) : after.owner ≠ .unwound := by
  rcases h.owner_eq with he | he <;> rw [he]
  · exact ho
  · exact mt Owner.rouse_eq_unwound_iff.mp ho

theorem OwnerStep.of_idle (h : OwnerStep pool action next) (ho : pool.owner = .idle) :
    action = .destroy ∧ next = { pool with owner := .raising } := by
  cases h with
  | giveUp => exact ⟨rfl, rfl⟩
  | giveUpAgain hd => rw [ho] at hd; cases hd
  | _ hc => cases ho.symm.trans hc

theorem CallerStep.shutdown_eq (h : CallerStep pool caller caller' signals after) :
    after.shutdown = pool.shutdown := by
  cases h <;> rfl

theorem CallerStep.owner_eq (h : CallerStep pool caller caller' signals after) :
    after.owner = pool.owner := by
  cases h <;> rfl

/-! ## The shutdown flag -/

theorem Reachable.shutdown_eq (h : Reachable pool) : pool.shutdown = pool.owner.hasRaised := by
  induction h with
  | start => rfl
  | step action _ hs ih =>
    cases transition_of_step? hs with
    | owner ht => cases ht <;> simp_all [Owner.hasRaised]
    | worker hp ht hw => cases ht <;> simpa using ih
    | caller hc ht hw => cases ht <;> exact ih
    | _ => exact ih

theorem Reachable.hasCleared_of_not_shutdown (h : Reachable pool) (hs : pool.shutdown = false) :
    pool.owner.hasCleared = false := by
  rw [h.shutdown_eq] at hs
  by_contra hc
  rw [Owner.hasRaised_of_hasCleared (by simpa using hc)] at hs
  cases hs

theorem WorkerStep.hasLeft (h : WorkerStep pool id phase phase' signals after)
    (hs : pool.shutdown = false) (hp : phase.hasLeft = false) : phase'.hasLeft = false := by
  cases h with
  | quit ht | retreat ht => rw [hs] at ht; cases ht
  | leave | part => cases hp
  | _ => rfl

theorem Reachable.countP_hasLeft (h : Reachable pool) (hf : pool.shutdown = false) :
    pool.workers.countP Phase.hasLeft = 0 := by
  induction h with
  | start => rfl
  | step action _ hs ih =>
    cases transition_of_step? hs with
    | owner ht =>
      cases ht with
      | spawn => simpa [Phase.hasLeft] using ih hf
      | raise => cases hf
      | broadcast => exact (countP_rouse rfl _).trans (ih hf)
      | _ => exact ih hf
    | @worker id phase phase' _ _ _ _ hp ht hw =>
      have hf := ht.shutdown_eq.symm.trans hf
      have hcount := hw.countP_add hp (f := Phase.hasLeft) rfl
      have hp := List.countP_eq_zero.mp (ih hf) phase (List.mem_of_getElem? hp)
      rw [ih hf, ht.hasLeft hf (by simpa using hp)] at hcount
      exact Nat.eq_zero_of_add_eq_zero_right hcount
    | stir hp => exact ((Signal.wakes hp).countP_eq rfl).trans (ih hf)
    | caller hc ht hw => exact (hw.countP_eq rfl).trans (ih (ht.shutdown_eq.symm.trans hf))
    | _ => exact ih hf

/-! ## What callers may be doing -/

theorem CallerStep.admits (h : CallerStep pool caller caller' signals after)
    (hf : pool.shutdown = pool.owner.hasRaised) (ha : pool.owner.admits caller) :
    pool.owner.admits caller' := by
  cases ho : pool.owner <;> rw [ho] at ha hf
  case idle => rfl
  case closed | unwound =>
    cases h with
    | allow hs => rw [hf] at hs; cases hs
    | _ => rfl
  all_goals cases h <;> cases ha

theorem Reachable.admits (h : Reachable pool) :
    ∀ caller ∈ pool.callers, pool.owner.admits caller := by
  induction h with
  | start => simp [Pool.start]
  | @step pool _ action hr hs ih =>
    cases transition_of_step? hs with
    | owner ht =>
      cases ht with
      | spawn => exact ih
      | giveUp _ hq => exact List.all_eq_true.mp hq
      | giveUpAgain => exact ih
      | announce => exact fun _ _ => rfl
      | close ho | unwind ho =>
        intro caller hc
        have hfin := ih caller hc
        rw [ho] at hfin
        cases caller with
        | finished => rfl
        | _ => cases hfin
      | _ =>
        intro caller hc
        have := ih caller hc
        simp_all [Owner.admits]
    | @worker id phase phase' _ after _ workers hp ht hw =>
      cases ht with
      | rest =>
        intro caller hc
        dsimp only at hc
        split_ifs at hc
        · obtain ⟨old, hold, rfl⟩ := List.mem_map.mp hc
          simpa using ih old hold
        · exact ih caller hc
      | leave => simpa using ih
      | _ => exact ih
    | stir => exact ih
    | callWait ho | callSubmit ho =>
      intro caller hc
      rcases List.mem_append.mp hc with hc | hc
      · exact ih caller hc
      · cases List.mem_singleton.mp hc
        rcases ho with ho | ⟨ho, _⟩
        · rw [ho]
          rfl
        · rw [Owner.admits_of_isDone ho]
          rfl
    | @caller id caller caller' _ after _ workers hc ht hw =>
      intro c hm
      change after.owner.admits c
      rw [ht.owner_eq]
      rcases List.mem_or_eq_of_mem_set hm with hm | rfl
      · exact ih c hm
      · exact ht.admits hr.shutdown_eq (ih caller (List.mem_of_getElem? hc))
    | stirCaller hc =>
      intro c hm
      rcases List.mem_or_eq_of_mem_set hm with hm | rfl
      · exact ih c hm
      · rw [show Caller.sleeping true = (Caller.sleeping _).notify from rfl, Owner.admits_notify]
        exact ih _ (List.mem_of_getElem? hc)
    | fail => exact ih

/-! ## The number of workers -/

theorem WorkerStep.failure_eq (h : WorkerStep pool id phase phase' signals after) :
    after.failure = pool.failure := by
  cases h <;> rfl

theorem WorkerStep.size_eq (h : WorkerStep pool id phase phase' signals after) :
    after.size = pool.size := by
  cases h <;> rfl

theorem Signal.length_eq (h : Signal signals workers woken workers') :
    workers'.length = workers.length := by
  cases h <;> simp

theorem size_eq_of_step? (hs : pool.step? action = some next) : next.size = pool.size := by
  cases transition_of_step? hs with
  | owner ht => cases ht <;> rfl
  | worker _ ht => exact ht.size_eq
  | caller _ ht => cases ht <;> rfl
  | _ => rfl

theorem Reachable.one_le_size (h : Reachable pool) : 1 ≤ pool.size := by
  induction h with
  | start _ h => exact h
  | step action _ hs ih => exact (size_eq_of_step? hs).symm ▸ ih

theorem Reachable.length_le_size (h : Reachable pool) : pool.workers.length ≤ pool.size := by
  induction h with
  | start => exact Nat.zero_le _
  | @step pool _ action _ hs ih =>
    cases transition_of_step? hs with
    | owner ht =>
      cases ht with
      | spawn _ hl => simpa using Nat.succ_le_of_lt hl
      | broadcast => simpa using ih
      | _ => exact ih
    | @worker id phase phase' _ after _ workers hp ht hw =>
      change workers.length ≤ after.size
      rw [hw.length_eq, List.length_set, ht.size_eq]
      exact ih
    | stir => simpa using ih
    | caller hc ht hw => cases ht <;> exact hw.length_eq.symm ▸ ih
    | _ => exact ih

theorem Reachable.length_workers (h : Reachable pool) (hf : pool.failure = none)
    (ho : pool.owner ≠ .spawning) : pool.workers.length = pool.size := by
  induction h with
  | start => exact absurd rfl ho
  | @step pool _ action hr hs ih =>
    cases transition_of_step? hs with
    | owner ht =>
      cases ht with
      | spawn hp => exact absurd hp ho
      | balk => cases hf
      | gather _ hl => exact hl
      | broadcast hp => simpa using ih hf (by rw [hp]; nofun)
      | giveUpAgain => exact ih hf ho
      | _ hp => exact ih hf (by rw [hp]; nofun)
    | @worker id phase phase' _ after _ workers hp ht hw =>
      change after.owner ≠ .spawning at ho
      have hl := ih (ht.failure_eq.symm.trans hf) fun hn => by
        rcases ht.owner_eq with he | he <;> rw [he, hn] at ho <;> exact ho rfl
      change workers.length = after.size
      rw [hw.length_eq, List.length_set, hl, ht.size_eq]
    | stir => simpa using ih hf ho
    | caller hc ht hw =>
      cases ht <;> exact hw.length_eq.trans (ih hf ho)
    | _ => exact ih hf ho

theorem Reachable.failure_eq (h : Reachable pool) (ho : pool.owner.isContent) :
    pool.failure = none := by
  induction h with
  | start => rfl
  | @step pool _ action _ hs ih =>
    cases transition_of_step? hs with
    | owner ht =>
      cases ht with
      | spawn | giveUpAgain => exact ih ho
      | gather hp | gathered hp | announce hp => exact ih (by rw [hp]; rfl)
      | _ => cases ho
    | @worker id phase phase' _ after _ workers hp ht hw =>
      change after.owner.isContent = true at ho
      refine ht.failure_eq.trans (ih ?_)
      rcases ht.owner_eq with he | he <;> simpa [he] using ho
    | caller hc ht hw => cases ht <;> exact ih ho
    | _ => exact ih ho

theorem Reachable.length_workers_of_isOpen (h : Reachable pool) (ho : pool.IsOpen) :
    pool.workers.length = pool.size := by
  rcases ho with ho | ⟨ho, hf⟩
  · exact h.length_workers (h.failure_eq (by rw [ho]; rfl)) (by rw [ho]; nofun)
  · refine h.length_workers hf fun hs => ?_
    rw [hs] at ho
    cases ho

end Pool
end TreePool
