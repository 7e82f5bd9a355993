/-! # Runs of a step function

A step function answers the state after a step, or nothing when that step is not possible. A run is
a list of steps of which each is possible in the state that those before it lead to.
-/

namespace TreePool

universe u v

variable {σ : Type u} {α : Type v} {step? : σ → α → Option σ} {s between next : σ}
variable {a : α} {as bs : List α}

def after? (step? : σ → α → Option σ) (s : σ) : List α → Option σ
  | [] => some s
  | a :: as => (step? s a).bind fun next => after? step? next as

theorem after?_cons (h : step? s a = some between) :
    after? step? s (a :: as) = after? step? between as := by
  rw [after?, h, Option.bind_some]

theorem after?_cons_eq_some_iff : after? step? s (a :: as) = some next ↔
    ∃ between, step? s a = some between ∧ after? step? between as = some next :=
  Option.bind_eq_some_iff

theorem after?_append (h : after? step? s as = some between) :
    after? step? s (as ++ bs) = after? step? between bs := by
  induction as generalizing s with
  | nil =>
    cases Option.some.inj h
    rfl
  | cons a as ih =>
    obtain ⟨first, hs, hrest⟩ := after?_cons_eq_some_iff.mp h
    rw [List.cons_append, after?_cons hs, ih hrest]

theorem after?_append_eq_some_iff : after? step? s (as ++ bs) = some next ↔
    ∃ between, after? step? s as = some between ∧ after? step? between bs = some next := by
  constructor
  · intro h
    induction as generalizing s with
    | nil => exact ⟨s, rfl, h⟩
    | cons a as ih =>
      obtain ⟨first, hs, hrest⟩ := after?_cons_eq_some_iff.mp h
      obtain ⟨between, has, hbs⟩ := ih hrest
      exact ⟨between, after?_cons_eq_some_iff.mpr ⟨first, hs, has⟩, hbs⟩
  · rintro ⟨between, has, hbs⟩
    rw [after?_append has, hbs]

@[elab_as_elim]
theorem after?_induction_of_mem {Law : σ → Prop}
    (hstep : ∀ {s next}, ∀ a ∈ as, Law s → step? s a = some next → Law next) (hs : Law s)
    (h : after? step? s as = some next) : Law next := by
  induction as generalizing s with
  | nil => exact Option.some.inj h ▸ hs
  | cons a as ih =>
    obtain ⟨between, ha, hrest⟩ := after?_cons_eq_some_iff.mp h
    exact ih (fun b hb => hstep b (List.mem_cons_of_mem a hb))
      (hstep a List.mem_cons_self hs ha) hrest

@[elab_as_elim]
theorem after?_induction {Law : σ → Prop}
    (hstep : ∀ {s a next}, Law s → step? s a = some next → Law next) (hs : Law s)
    (h : after? step? s as = some next) : Law next :=
  after?_induction_of_mem (fun _ _ => hstep) hs h

end TreePool
