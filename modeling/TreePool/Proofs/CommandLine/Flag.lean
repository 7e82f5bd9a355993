import Mathlib.Tactic.SplitIfs
import TreePool.CommandLine.Options

/-! # The flag for reports

The flag for reports may be put before all other arguments, and does not change what they mean:
`parse_verboseFlag`.
-/

namespace TreePool
namespace Options

def verboseFlag : Bytes := Bytes.ofString "--verbose"

def Draft.flag (draft : Draft) : Draft := { draft with verbose := draft.verbose + 1 }

theorem Draft.close_flag (draft : Draft) (waiting : Option Valued) :
    draft.flag.close waiting = (draft.close waiting).flag := by
  cases waiting <;> rfl

theorem Draft.addPath_flag (draft : Draft) (path : Bytes) :
    draft.flag.addPath path = (draft.addPath path).map Draft.flag := by
  unfold addPath flag
  split_ifs <;> rfl

theorem readShort_flag (draft : Draft) (letters : Bytes) :
    readShort draft.flag letters = (readShort draft letters).map (Prod.map Draft.flag id) := by
  induction letters generalizing draft with
  | nil => rfl
  | cons letter rest ih =>
    unfold readShort
    dsimp only
    split
    · exact ih draft.flag
    all_goals first | rfl | (cases rest <;> rfl)

theorem readLong_flag (draft : Draft) (option : Bytes) :
    readLong draft.flag option = (readLong draft option).map (Prod.map Draft.flag id) := by
  unfold readLong
  rcases splitValue option with ⟨name, attached⟩
  dsimp only
  split_ifs <;> first | rfl | (cases attached <;> rfl)

/-- What is read after a flag is read as without it. -/
theorem readFrom_flag (draft : Draft) (waiting : Option Valued) (pathsOnly : Bool)
    (arguments : List Bytes) : readFrom draft.flag waiting pathsOnly arguments =
      (readFrom draft waiting pathsOnly arguments).map Draft.flag := by
  induction arguments generalizing draft waiting pathsOnly with
  | nil =>
    rw [readFrom, readFrom, Draft.close_flag]
    rfl
  | cons argument rest ih =>
    have hgive (option : Valued) (value : Option Bytes) :
        readFrom (draft.flag.give option value) none false rest =
          (readFrom (draft.give option value) none false rest).map Draft.flag :=
      ih (draft.give option value) none false
    unfold readFrom
    rw [Draft.addPath_flag, Draft.close_flag]
    -- Wherever the argument is a path, it is added to the draft before the rest is read.
    generalize draft.addPath argument = added
    cases pathsOnly with
    | true => cases added <;> first | rfl | exact ih _ none true
    | false =>
      rw [if_neg Bool.false_ne_true, if_neg Bool.false_ne_true]
      rcases argument with _ | ⟨a, _ | ⟨b, more⟩⟩
      · cases waiting with
        | none => cases added <;> first | rfl | exact ih _ none false
        | some option => exact hgive option _
      · cases waiting with
        | none => cases added <;> first | rfl | exact ih _ none false
        | some option => exact hgive option _
      · dsimp only
        split_ifs with ha hb
        · cases waiting with
          | none => cases added <;> first | rfl | exact ih _ none false
          | some option => exact hgive option _
        · exact ih _ none true
        · rw [readLong_flag]
          cases readLong (draft.close waiting) more with
          | error stop => rfl
          | ok result => exact ih result.1 result.2 false
        · rw [readShort_flag]
          cases readShort (draft.close waiting) (b :: more) with
          | error stop => rfl
          | ok result => exact ih result.1 result.2 false

theorem Draft.options?_flag {draft : Draft} {options : Options} (h : draft.options? = some options)
    (hv : options.verbose = false) :
    draft.flag.options? = some { options with verbose := true } := by
  unfold Draft.options? at h
  split at h
  next source destination hpaths =>
    obtain ⟨source', hs, h⟩ := Option.bind_eq_some_iff.mp h
    obtain ⟨destination', hd, h⟩ := Option.bind_eq_some_iff.mp h
    obtain ⟨workers, hw, h⟩ := Option.bind_eq_some_iff.mp h
    obtain ⟨config, hc, h⟩ := Option.bind_eq_some_iff.mp h
    obtain ⟨server, hn, h⟩ := Option.bind_eq_some_iff.mp h
    split_ifs at h with hmany
    cases h
    have hnone : draft.verbose = 0 := by
      have hne := of_decide_eq_false hv
      omega
    have hreads {α : Type} (option : Valued) (read : List Char → Option α) :
        draft.flag.read? option read = draft.read? option read := rfl
    have hpaths' : draft.flag.paths = [source, destination] := hpaths
    simp only [Draft.options?, hpaths', hreads, hs, hd, hw, hc, hn, Option.bind_eq_bind,
      Option.bind_some]
    simp [Draft.flag, hnone]
  next => cases h

theorem parse_verboseFlag {arguments : List Bytes} {options : Options}
    (hp : parse arguments = .ok options) (hv : options.verbose = false) :
    parse (verboseFlag :: arguments) = .ok { options with verbose := true } := by
  have hread : readFrom {} none false (verboseFlag :: arguments) =
      (readFrom {} none false arguments).map Draft.flag :=
    readFrom_flag {} none false arguments
  unfold parse at hp ⊢
  rw [hread]
  cases hr : readFrom {} none false arguments with
  | error stop =>
    rw [hr] at hp
    cases hp
  | ok draft =>
    rw [hr] at hp
    dsimp only at hp
    cases ho : draft.options? with
    | none =>
      rw [ho] at hp
      cases hp
    | some read =>
      rw [ho] at hp
      cases hp
      simp only [Except.map, Draft.options?_flag ho hv]

end Options
end TreePool
