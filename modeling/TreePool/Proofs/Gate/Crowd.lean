import TreePool.Gate.Crowd
import TreePool.Proofs.Run
import Mathlib.Data.List.Count
import Mathlib.Data.List.Induction

/-! # What a gate lets through

Right before somebody gets through a gate it was signalled, with no reset in between, or it was
armed from the start. So there are no more passes than signals: `metered_of_play?`. And while an
armed gate has sleepers, somebody is awake who will get through it, whoever else comes first.
-/

namespace TreePool
namespace Crowd

variable {crowd next : Crowd} {action : Action} {actions : List Action} {gate : Gate} {i : Nat}

/-! ## Steps -/

inductive Transition (crowd : Crowd) : Action → Crowd → Prop
  | join : Transition crowd .join { crowd with waiters := crowd.waiters ++ [.waiting .arriving] }
  | pass {i : Nat} {stance : Stance} (hi : crowd.waiters[i]? = some (.waiting stance))
      (hs : stance ≠ .asleep) (ha : crowd.gate.armed = true) :
      Transition crowd (.look i) ⟨.closed, crowd.waiters.set i .through⟩
  | park {i : Nat} {stance : Stance} (hi : crowd.waiters[i]? = some (.waiting stance))
      (hs : stance ≠ .asleep) (ha : crowd.gate.armed = false) :
      Transition crowd (.look i) ⟨crowd.gate, crowd.waiters.set i (.waiting .asleep)⟩
  | stir {i : Nat} (hi : crowd.waiters[i]? = some (.waiting .asleep)) :
      Transition crowd (.stir i) { crowd with waiters := crowd.waiters.set i (.waiting .awake) }
  | postUnheard (hno : ∀ waiter ∈ crowd.waiters, waiter ≠ .waiting .asleep) :
      Transition crowd (.post none) { crowd with gate := crowd.gate.post }
  | post {i : Nat} (hi : crowd.waiters[i]? = some (.waiting .asleep)) :
      Transition crowd (.post (some i)) ⟨crowd.gate.post, crowd.waiters.set i (.waiting .awake)⟩
  | postAll : Transition crowd .postAll ⟨crowd.gate.post, crowd.waiters.map rouse⟩
  | reset : Transition crowd .reset { crowd with gate := crowd.gate.reset }

theorem isAsleep_iff {waiter : Waiter} : isAsleep waiter = true ↔ waiter = .waiting .asleep :=
  decide_eq_true_iff

theorem look?_eq_some {waiter after : Waiter} {gate' : Gate}
    (h : look? gate waiter = some (gate', after)) :
    ∃ stance, waiter = .waiting stance ∧ stance ≠ .asleep ∧
      (gate.armed = true ∧ gate' = .closed ∧ after = .through ∨
        gate.armed = false ∧ gate' = gate ∧ after = .waiting .asleep) := by
  cases waiter with
  | through => cases h
  | waiting stance =>
    cases stance with
    | asleep => cases h
    | arriving | awake =>
      refine ⟨_, rfl, by decide, ?_⟩
      cases ha : gate.armed <;> simp [look?, Gate.pass?, ha] at h
      · exact .inr ⟨rfl, h.1.symm, h.2.symm⟩
      · exact .inl ⟨rfl, h.1.symm, h.2.symm⟩

theorem transition_of_step? (h : crowd.step? action = some next) :
    Transition crowd action next := by
  cases action with
  | join =>
    cases h
    exact .join
  | look i =>
    obtain ⟨waiter, hi, h⟩ := Option.bind_eq_some_iff.mp h
    obtain ⟨⟨gate', after⟩, hl, h⟩ := Option.bind_eq_some_iff.mp h
    cases h
    obtain ⟨stance, rfl, hs, ⟨ha, rfl, rfl⟩ | ⟨ha, rfl, rfl⟩⟩ := look?_eq_some hl
    · exact .pass hi hs ha
    · exact .park hi hs ha
  | stir i =>
    obtain ⟨waiter, hi, h⟩ := Option.bind_eq_some_iff.mp h
    obtain ⟨ha, h⟩ := Option.ite_none_right_eq_some.mp h
    obtain rfl := isAsleep_iff.mp ha
    cases h
    exact .stir hi
  | post woken =>
    cases woken with
    | none =>
      obtain ⟨hno, h⟩ := Option.ite_none_left_eq_some.mp h
      cases h
      refine .postUnheard fun waiter hm hw => hno ?_
      exact List.any_eq_true.mpr ⟨waiter, hm, isAsleep_iff.mpr hw⟩
    | some i =>
      obtain ⟨waiter, hi, h⟩ := Option.bind_eq_some_iff.mp h
      obtain ⟨ha, h⟩ := Option.ite_none_right_eq_some.mp h
      obtain rfl := isAsleep_iff.mp ha
      cases h
      exact .post hi
  | postAll =>
    cases h
    exact .postAll
  | reset =>
    cases h
    exact .reset

theorem step?_look_of_armed (hi : crowd.waiters[i]? = some (.waiting .awake))
    (ha : crowd.gate.armed = true) :
    crowd.step? (.look i) = some ⟨.closed, crowd.waiters.set i .through⟩ := by
  rw [step?, hi]
  simp [look?, Gate.pass?, ha]

abbrev play? (crowd : Crowd) (actions : List Action) : Option Crowd := after? step? crowd actions

/-! ## What happens to the gate -/

inductive Mark where
  | signal
  | pass
  | reset
deriving DecidableEq, Repr

def Action.isSignal : Action → Bool
  | .post _ | .postAll => true
  | _ => false

def mark? (crowd : Crowd) : Action → Option Mark
  | .look _ => if crowd.gate.armed then some .pass else none
  | .post _ | .postAll => some .signal
  | .reset => some .reset
  | .join | .stir _ => none

def marks (crowd : Crowd) : List Action → List Mark
  | [] => []
  | action :: rest =>
    (crowd.mark? action).toList ++ ((crowd.step? action).map (marks · rest)).getD []

theorem marks_cons {rest : List Action} (hs : crowd.step? action = some next) :
    crowd.marks (action :: rest) = (crowd.mark? action).toList ++ next.marks rest := by
  rw [marks, hs]
  rfl

def armedAfter (armed : Bool) (marks : List Mark) : Bool :=
  marks.getLast?.elim armed (· = .signal)

theorem armedAfter_append (armed : Bool) (first second : List Mark) :
    armedAfter armed (first ++ second) = armedAfter (armedAfter armed first) second := by
  unfold armedAfter
  rw [List.getLast?_append]
  cases second.getLast? <;> rfl

theorem Transition.armed_eq (h : Transition crowd action next) :
    next.gate.armed = armedAfter crowd.gate.armed (crowd.mark? action).toList := by
  cases h with
  | pass _ _ ha =>
    rw [mark?, if_pos ha]
    rfl
  | park _ _ ha =>
    rw [mark?, if_neg (by simp [ha])]
    rfl
  | _ => rfl

theorem count_set_of_ne {waiters : List Waiter} {waiter other after : Waiter}
    (hi : waiters[i]? = some waiter) (hne : waiter ≠ other) :
    (waiters.set i after).count other = waiters.count other + (decide (after = other)).toNat := by
  obtain ⟨hlt, hget⟩ := List.getElem?_eq_some_iff.mp hi
  rw [List.count_set hlt, hget, if_neg (by simpa using hne), Nat.sub_zero]
  by_cases ha : after = other <;> simp [ha]

theorem Transition.passed_eq (h : Transition crowd action next) :
    next.passed = crowd.passed + (crowd.mark? action).toList.count .pass := by
  cases h with
  | join => simp [passed, mark?]
  | pass hi _ ha => simp [passed, mark?, ha, count_set_of_ne hi]
  | park hi _ ha => simp [passed, mark?, ha, count_set_of_ne hi]
  | stir hi => simp [passed, mark?, count_set_of_ne hi]
  | post hi => simp [passed, mark?, count_set_of_ne hi]
  | postUnheard | reset => rfl
  | postAll =>
    have hkept : ∀ waiter, rouse waiter = .through ↔ waiter = .through := by
      intro waiter
      rcases waiter with (_ | _ | _) | _ <;> simp [rouse]
    rw [passed, passed, List.count, List.countP_map]
    refine List.countP_congr fun waiter _ => ?_
    simpa using hkept waiter

theorem armed_of_mark?_eq_pass (h : crowd.mark? action = some .pass) :
    crowd.gate.armed = true := by
  cases action with
  | look => exact (Option.ite_none_right_eq_some.mp h).1
  | _ => cases h

theorem armed_eq_of_play? (h : crowd.play? actions = some next) :
    next.gate.armed = armedAfter crowd.gate.armed (crowd.marks actions) := by
  induction actions generalizing crowd with
  | nil =>
    cases h
    rfl
  | cons action actions ih =>
    obtain ⟨between, hs, hrest⟩ := after?_cons_eq_some_iff.mp h
    rw [ih hrest, marks_cons hs, armedAfter_append, (transition_of_step? hs).armed_eq]

theorem passed_eq_of_play? (h : crowd.play? actions = some next) :
    next.passed = crowd.passed + (crowd.marks actions).count .pass := by
  induction actions generalizing crowd with
  | nil =>
    cases h
    rfl
  | cons action actions ih =>
    obtain ⟨between, hs, hrest⟩ := after?_cons_eq_some_iff.mp h
    rw [ih hrest, marks_cons hs, List.count_append, (transition_of_step? hs).passed_eq]
    omega

theorem count_signal_of_play? (h : crowd.play? actions = some next) :
    (crowd.marks actions).count .signal = actions.countP Action.isSignal := by
  induction actions generalizing crowd with
  | nil => rfl
  | cons action actions ih =>
    obtain ⟨between, hs, hrest⟩ := after?_cons_eq_some_iff.mp h
    rw [marks_cons hs, List.count_append, ih hrest, List.countP_cons, Nat.add_comm]
    congr 1
    cases action with
    | look => cases ha : crowd.gate.armed <;> simp [mark?, ha, Action.isSignal]
    | _ => rfl

theorem armedAfter_of_marks_eq {front back : List Mark} (h : crowd.play? actions = some next)
    (hm : crowd.marks actions = front ++ .pass :: back) :
    armedAfter crowd.gate.armed front = true := by
  induction actions generalizing crowd front with
  | nil => simp [marks] at hm
  | cons action actions ih =>
    obtain ⟨between, hs, hrest⟩ := after?_cons_eq_some_iff.mp h
    rw [marks_cons hs] at hm
    have harmed := (transition_of_step? hs).armed_eq
    cases hmark : crowd.mark? action with
    | none =>
      rw [hmark] at hm harmed
      have hlater := ih hrest hm
      rwa [harmed] at hlater
    | some mark =>
      rw [hmark] at hm harmed
      cases front with
      | nil =>
        obtain rfl := (List.cons.inj hm).1
        exact armed_of_mark?_eq_pass hmark
      | cons first front =>
        obtain ⟨hfirst, hm⟩ := List.cons.inj hm
        have hlater := ih hrest hm
        rw [harmed, ← armedAfter_append] at hlater
        rw [← hfirst]
        exact hlater

/-- If every pass finds the gate armed, then signals pay for all passes and for an armed gate. -/
theorem count_pass_add_le {armed : Bool} (marks : List Mark)
    (h : ∀ front back, marks = front ++ .pass :: back → armedAfter armed front = true) :
    marks.count .pass + (armedAfter armed marks).toNat ≤ marks.count .signal + armed.toNat := by
  induction marks using List.reverseRecOn with
  | nil => simp [armedAfter]
  | append_singleton marks mark ih =>
    have hbefore := ih fun front back hm => by
      exact h front (back ++ [mark]) (by rw [hm]; simp)
    rw [armedAfter_append, List.count_append, List.count_append]
    cases mark with
    | signal =>
      have hle := Bool.toNat_le (armedAfter armed marks)
      simp [armedAfter] at hbefore ⊢
      omega
    | pass =>
      rw [h marks [] rfl] at hbefore
      simp [armedAfter] at hbefore ⊢
      omega
    | reset =>
      simp [armedAfter] at hbefore ⊢
      omega

theorem passed_add_le_of_play? (h : crowd.play? actions = some next) :
    next.passed + next.gate.armed.toNat ≤
      crowd.passed + crowd.gate.armed.toNat + actions.countP Action.isSignal := by
  have hle := count_pass_add_le (crowd.marks actions) fun _ _ => armedAfter_of_marks_eq h
  rw [← armed_eq_of_play? h, count_signal_of_play? h] at hle
  have hpassed := passed_eq_of_play? h
  omega

/-! ## Who is awake -/

/-- When the gate is armed and somebody sleeps before it, somebody else was woken. -/
def IsAlert (crowd : Crowd) : Prop :=
  crowd.gate.armed = true → .waiting .asleep ∈ crowd.waiters → .waiting .awake ∈ crowd.waiters

theorem Transition.isAlert (h : Transition crowd action next) (hc : crowd.IsAlert) :
    next.IsAlert := by
  intro ha hm
  cases h with
  | join =>
    refine List.mem_append_left _ (hc ha ?_)
    simpa using hm
  | pass => cases ha
  | park _ _ hclosed => cases hclosed.symm.trans ha
  | stir hi | post hi => exact List.mem_set (List.getElem?_eq_some_iff.mp hi).1 _
  | postUnheard hno => exact absurd rfl (hno _ hm)
  | postAll =>
    obtain ⟨waiter, -, hw⟩ := List.mem_map.mp hm
    rcases waiter with (_ | _ | _) | _ <;> cases hw
  | reset => cases ha

theorem IsAlert.play? (hc : crowd.IsAlert) (h : crowd.play? actions = some next) :
    next.IsAlert :=
  after?_induction (fun hc hs => (transition_of_step? hs).isAlert hc) hc h

theorem isAlert_ofGate (gate : Gate) : (ofGate gate).IsAlert := fun _ hm => nomatch hm

/-! ## Runs -/

/-- What holds of a crowd that came to a gate in a run: no pass goes without a signal of its own, a
broadcast lets one waiter through at most, and an armed gate has somebody who will get through. -/
structure Metered (gate : Gate) (actions : List Action) (crowd : Crowd) : Prop where
  bounded : crowd.passed + crowd.gate.armed.toNat ≤
    actions.countP Action.isSignal + gate.armed.toNat
  spaced : ∀ front between back,
    (ofGate gate).marks actions = front ++ .pass :: between ++ .pass :: back →
      ∃ early late, between = early ++ .signal :: late ∧ .reset ∉ late
  counted : ((ofGate gate).marks actions).count .pass = crowd.passed ∧
    ((ofGate gate).marks actions).count .signal = actions.countP Action.isSignal
  broadcast : ∀ later next, crowd.play? (.postAll :: later) = some next →
    later.countP Action.isSignal = 0 → next.passed ≤ crowd.passed + 1
  alert : crowd.gate.armed = true → ∀ i, crowd.waiters[i]? = some (.waiting .asleep) →
    ∃ j next, j ≠ i ∧ crowd.waiters[j]? = some (.waiting .awake) ∧
      crowd.step? (.look j) = some next ∧ next.waiters[j]? = some .through

theorem spaced_of_play? {front between back : List Mark} (h : crowd.play? actions = some next)
    (hm : crowd.marks actions = front ++ .pass :: between ++ .pass :: back) :
    ∃ early late, between = early ++ .signal :: late ∧ .reset ∉ late := by
  have harmed := armedAfter_of_marks_eq h hm
  rw [← List.singleton_append, ← List.append_assoc, armedAfter_append] at harmed
  rcases List.eq_nil_or_concat between with rfl | ⟨early, last, rfl⟩
  · simp [armedAfter] at harmed
  · have hlast : last = .signal := by simpa [armedAfter] using harmed
    exact ⟨early, [], by rw [hlast, List.concat_eq_append], List.not_mem_nil⟩

theorem passed_le_of_postAll {later : List Action}
    (h : crowd.play? (.postAll :: later) = some next)
    (hl : later.countP Action.isSignal = 0) : next.passed ≤ crowd.passed + 1 := by
  obtain ⟨woken, hs, hrest⟩ := after?_cons_eq_some_iff.mp h
  have hpassed := (transition_of_step? hs).passed_eq
  have hle := passed_add_le_of_play? hrest
  have harmed := Bool.toNat_le woken.gate.armed
  simp [mark?] at hpassed
  omega

/-- In any run before a gate, whatever its initial value, passes are paid for by signals, and no
armed gate leaves all its waiters asleep. -/
theorem metered_of_play? (h : (ofGate gate).play? actions = some crowd) :
    Metered gate actions crowd where
  bounded := by
    have hle := passed_add_le_of_play? h
    simp [ofGate, passed] at hle ⊢
    omega
  spaced _ _ _ hm := spaced_of_play? h hm
  counted := by
    have hpassed := passed_eq_of_play? h
    exact ⟨by simpa [ofGate, passed] using hpassed.symm, count_signal_of_play? h⟩
  broadcast _ _ := passed_le_of_postAll
  alert ha i hi := by
    have hm := (isAlert_ofGate gate).play? h ha (List.mem_of_getElem? hi)
    obtain ⟨j, hj⟩ := List.mem_iff_getElem?.mp hm
    have hlt := (List.getElem?_eq_some_iff.mp hj).1
    refine ⟨j, _, ?_, hj, step?_look_of_armed hj ha, List.getElem?_set_self hlt⟩
    rintro rfl
    cases hi.symm.trans hj

/-- Three waiters sleep, one of them is woken, a newcomer gets through before it, it falls asleep
again, and another one is woken. -/
def overtaken : List Action :=
  [.join, .join, .join, .look 0, .look 1, .look 2, .post (some 0), .join, .look 3, .look 0,
    .post (some 1)]

theorem metered_overtaken :
    ∃ crowd, (ofGate .closed).play? overtaken = some crowd ∧
      crowd.waiters = [.waiting .asleep, .waiting .awake, .waiting .asleep, .through] ∧
      crowd.gate.armed = true ∧ Metered .closed overtaken crowd := by
  refine ⟨⟨⟨true⟩, [.waiting .asleep, .waiting .awake, .waiting .asleep, .through]⟩,
    ?_, rfl, rfl, ?_⟩
  · decide
  · exact metered_of_play? (by decide)

end Crowd
end TreePool
