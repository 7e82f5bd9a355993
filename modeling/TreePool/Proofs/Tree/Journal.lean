import TreePool.Proofs.Tree.Parallel
import TreePool.Proofs.Workshop.Accounts

/-! # Journals of copies

A journal of a copy tells which items the walk came across that are no directories, and which
attempts to copy a file were made meanwhile, right away or by the steps of a pool. When the copy
gets to its end, its errands are those of the items, and each was attempted once, or is owed by the
pool.
-/

namespace TreePool
namespace Tree

variable {shop next : Workshop} {source destination : Path} {crew : PoolId} {item : Item}
variable {ids : List ErrandId} {progress : Progress}

/-- What a walk came across besides directories, and the attempts that were made meanwhile. -/
structure Journal where
  items : List Item := []
  attempts : List Attempt := []

namespace Journal

def enter (journal : Journal) (item : Item) (attempts : List Attempt) : Journal where
  items := if item.isDirectory then journal.items else journal.items ++ [item]
  attempts := journal.attempts ++ attempts

def fresh (source destination : Path) (crew : Option PoolId) (journal : Journal) : List Errand :=
  journal.items.map (errandOf source destination crew)

theorem fresh_enter_directory (hd : item.isDirectory = true) (crew : Option PoolId)
    (journal : Journal) (attempts : List Attempt) :
    (journal.enter item attempts).fresh source destination crew =
      journal.fresh source destination crew := by
  simp [fresh, enter, hd]

theorem fresh_enter_file (hd : item.isDirectory = false) (crew : Option PoolId)
    (journal : Journal) (attempts : List Attempt) :
    (journal.enter item attempts).fresh source destination crew =
      journal.fresh source destination crew ++ [errandOf source destination crew item] := by
  simp [fresh, enter, hd]

end Journal

/-! ## Files that are copied right away -/

def Progress.attempt? (source destination : Path) (item : Item) (progress : Progress) :
    Option Attempt :=
  if item.isDirectory then none
  else
    match Progress.errandFor source destination none item with
    | .ok errand => (progress.shop.addErrand errand).attempt? progress.shop.errands.length
    | .error _ => none

def journaled (source destination : Path) (item : Item) (state : Progress × Journal) :
    (Progress × Journal) × Option Error :=
  let (progress, failure) := state.1.handle source destination none item
  ((progress, state.2.enter item (state.1.attempt? source destination item).toList), failure)

def journaledCopy (shop : Workshop) (source destination : Path) :
    (Progress × Journal) × Option Error :=
  walk (fun state => state.1.shop.files) (journaled source destination) Error.io source
    (Progress.mk shop [], {})

def journal (shop : Workshop) (source destination : Path) : Journal :=
  (journaledCopy shop source destination).1.2

theorem copy_eq_journaledCopy (shop : Workshop) (source destination : Path) :
    copy shop source destination none =
      let ((progress, _), failure) := journaledCopy shop source destination
      (progress.shop, match failure with | none => .ok progress.errands | some e => .error e) := by
  have hmap : walk (fun progress => progress.shop.files)
      (Progress.handle source destination none) Error.io source (Progress.mk shop []) =
      (journaledCopy shop source destination).map Prod.fst id :=
    @walk_map _ _ _ _ _ _ Prod.fst (journaled source destination) (fun item state => rfl) source
      (Progress.mk shop [], {})
  rw [copy, hmap]
  rcases journaledCopy shop source destination with ⟨⟨progress, journal⟩, _ | e⟩ <;> rfl

/-- The errands of a copy in progress are those of the items so far, and each was attempted. -/
structure Settles (source destination : Path) (progress : Progress) (journal : Journal) : Prop where
  ids : progress.errands = List.range progress.shop.errands.length
  accounts : progress.shop.Accounts (journal.fresh source destination none) journal.attempts []

theorem makeDirectories_eq {path : Path} {made : Progress}
    (h : progress.makeDirectories path = (made, none)) :
    made.errands = progress.errands ∧ made.shop.errands = progress.shop.errands ∧
      made.shop.pools = progress.shop.pools := by
  obtain rfl : (progress.makeDirectories path).1 = made := congrArg Prod.fst h
  exact ⟨rfl, rfl, rfl⟩

theorem Settles.carry {journal : Journal} (h : Settles source destination progress journal)
    (hd : item.isDirectory = false) (hr : refusalOf? source destination item = none) :
    Settles source destination (progress.carry none (errandOf source destination none item)).1
      (journal.enter item (progress.attempt? source destination item).toList) := by
  let errand := errandOf source destination none item
  let made := progress.shop.addErrand errand
  have hlength := h.accounts.length_eq
  have hmade : made.Accounts (journal.fresh source destination none ++ [errand])
      journal.attempts [progress.shop.errands.length] := by
    have hadd : made.Accounts _ _ _ := h.accounts.add rfl
    rwa [List.nil_append, ← hlength] at hadd
  have hnew : (journal.fresh source destination none ++
      [errand])[progress.shop.errands.length]? = some errand := by
    rw [hlength, List.getElem?_concat_length]
  have hattempt : progress.attempt? source destination item =
      some ⟨progress.shop.errands.length,
        (made.files.copy errand.source errand.destination).isSome⟩ := by
    rw [Progress.attempt?, if_neg (by simp [hd]), errandFor_eq, hr]
    simp [Workshop.attempt?, Workshop.addErrand, made, errand]
  obtain ⟨-, hids, -, he⟩ := carry_inline progress errand
  refine ⟨?_, ?_⟩
  · rw [hids, he, h.ids, List.length_append, List.length_singleton, List.range_succ]
  · rw [Journal.fresh_enter_file hd, hattempt]
    have hcopied := hmade.carryOut List.mem_cons_self hnew
      (show (progress.carry none errand).1.shop.errands = _ from rfl)
    rwa [List.erase_cons_head] at hcopied

theorem Settles.handle {journal : Journal} {handled : Progress}
    (h : Settles source destination progress journal)
    (hh : progress.handle source destination none item = (handled, none)) :
    Settles source destination handled
      (journal.enter item (progress.attempt? source destination item).toList) := by
  cases hd : item.isDirectory with
  | true =>
    rw [handle_directory hd] at hh
    obtain ⟨hids, he, -⟩ := makeDirectories_eq hh
    refine ⟨?_, ?_⟩
    · rw [hids, he, h.ids]
    · rw [Journal.fresh_enter_directory hd]
      simpa [Journal.enter, Progress.attempt?, hd] using h.accounts.congr he
  | false =>
    rw [handle_file hd] at hh
    cases hr : refusalOf? source destination item with
    | some e =>
      rw [hr] at hh
      cases hh
    | none =>
      rw [hr] at hh
      obtain rfl : (progress.carry none (errandOf source destination none item)).1 = handled :=
        congrArg Prod.fst hh
      exact h.carry hd hr

/-- What a copy of each file right away comes to, when it gets to its end. -/
theorem settles_of_copy (h : shop.errands = [])
    (hc : copy shop source destination none = (next, .ok ids)) :
    let journal := journal shop source destination
    ids = List.range journal.items.length ∧
      next.Accounts (journal.fresh source destination none) journal.attempts [] := by
  rw [copy_eq_journaledCopy] at hc
  rcases hw : journaledCopy shop source destination with ⟨⟨progress, journal⟩, _ | e⟩
  · rw [hw] at hc
    cases hc
    have hstart : Settles source destination ⟨shop, []⟩ {} := by
      refine ⟨?_, .nil h⟩
      rw [h]
      rfl
    have hsettles : Settles source destination progress journal := by
      refine walk_keeps_of_ok (I := fun state : Progress × Journal =>
        Settles source destination state.1 state.2) ?_ hstart hw
      rintro item ⟨progress, journal⟩ ⟨handled, journal'⟩ hs hh
      rcases hhandle : progress.handle source destination none item with ⟨after, _ | e⟩
      · simp only [journaled, hhandle] at hh
        cases hh
        exact hs.handle hhandle
      · simp only [journaled, hhandle] at hh
        cases hh
    have hlength := hsettles.accounts.length_eq
    rw [Journal.fresh, List.length_map] at hlength
    simp only [Tree.journal, hw]
    exact ⟨hlength ▸ hsettles.ids, hsettles.accounts⟩
  · rw [hw] at hc
    cases hc

/-! ## Files that a pool copies -/

/-- How the threads of a pool get on while a tree is copied on it: the steps that they take at each
pause of the walk, and those that they and the walk take after it has offered a task. The numbers
say how many pauses there have been. -/
structure Pace where
  between : Nat → Workshop → List (Action Effect)
  during : Nat → Workshop → List (Action Effect)

structure Pace.IsInternal (pace : Pace) : Prop where
  between : ∀ pauses shop, ∀ action ∈ pace.between pauses shop, action.isInternal
  during : ∀ pauses shop, ∀ action ∈ pace.during pauses shop, action.isInternal

/-- Handles an item on a pool. When a task is offered, steps are taken before the walk goes on. -/
def handlePaced (source destination : Path) (crew : PoolId)
    (steps : Workshop → List (Action Effect)) (item : Item) (progress : Progress) :
    Progress × Option Error :=
  if item.isDirectory then progress.makeDirectories (target destination item)
  else
    match Progress.errandFor source destination (some crew) item with
    | .error e => (progress, some e)
    | .ok errand =>
      let id := progress.shop.errands.length
      let shop := progress.shop.addErrand errand
      let offered := shop.takeAll crew (.call (.submit (.act (.copy id) .done)) :: steps shop)
      match offered.lastReply? crew with
      | some (.refused _) => ({ progress with shop := offered }, some .poolDestroyed)
      | _ => (⟨offered, progress.errands ++ [id]⟩, none)

def paced (source destination : Path) (crew : PoolId) (pace : Pace) (item : Item)
    (state : Progress × Nat) : (Progress × Nat) × Option Error :=
  let (progress, pauses) := state
  let before := progress.takeAll crew (pace.between pauses progress.shop)
  let (handled, failure) := handlePaced source destination crew (pace.during pauses) item before
  ((handled.takeAll crew (pace.between (pauses + 1) handled.shop), pauses + 2), failure)

def copyPaced (shop : Workshop) (source destination : Path) (crew : PoolId) (pace : Pace) :
    Workshop × Except Error (List ErrandId) :=
  let ((progress, _), failure) := walk (fun state : Progress × Nat => state.1.shop.files)
    (paced source destination crew pace) Error.io source (Progress.mk shop [], 0)
  match failure with
  | none => (progress.shop, .ok progress.errands)
  | some e => (progress.shop, .error e)

/-- Only the walk takes steps, and it wakes the first sleeper when it has pushed a task. -/
def Pace.alone (crew : PoolId) : Pace where
  between _ _ := []
  during _ shop :=
    let caller := ((shop.pool? crew).map (·.callers.length)).getD 0
    let sleeper := (shop.pool? crew).bind (·.workers.findIdx? Phase.isAsleep)
    [.caller caller none, .caller caller sleeper]

theorem Pace.isInternal_alone (crew : PoolId) : (Pace.alone crew).IsInternal := by
  refine ⟨?_, ?_⟩
  · intro pauses shop action hm
    cases hm
  · intro pauses shop action hm
    simp only [alone, List.mem_cons, List.not_mem_nil, or_false] at hm
    rcases hm with rfl | rfl <;> rfl

/-- If nobody else takes a step meanwhile, this is the copy on the pool. -/
theorem copyPaced_alone (shop : Workshop) (source destination : Path) (crew : PoolId) :
    copyPaced shop source destination crew (.alone crew) =
      copy shop source destination (some crew) := by
  have hhandle (item : Item) (state : Progress × Nat) :
      state.1.handle source destination (some crew) item =
        (paced source destination crew (.alone crew) item state).map Prod.fst id := by
    change state.1.handle source destination (some crew) item =
      handlePaced source destination crew ((Pace.alone crew).during state.2) item state.1
    unfold Progress.handle handlePaced
    cases item.isDirectory with
    | true => rfl
    | false =>
      cases Progress.errandFor source destination (some crew) item with
      | error => rfl
      | ok errand =>
        let shop := state.1.shop.addErrand errand
        let body : Body Effect := .act (.copy state.1.shop.errands.length) .done
        let offered := shop.takeAll crew
          (.call (.submit body) :: (Pace.alone crew).during state.2 shop)
        have hsubmit : shop.submit crew body = match offered.lastReply? crew with
          | some (.refused _) => (offered, .error .poolDestroyed)
          | _ => (offered, .ok ()) := rfl
        change state.1.carry (some crew) errand = match offered.lastReply? crew with
          | some (.refused _) => ({ state.1 with shop := offered }, some .poolDestroyed)
          | _ => (⟨offered, state.1.errands ++ [state.1.shop.errands.length]⟩, none)
        simp only [Progress.carry]
        rw [hsubmit]
        rcases offered.lastReply? crew with _ | _ | _ | _ <;> rfl
  have hmap : walk (fun progress => progress.shop.files)
      (Progress.handle source destination (some crew)) Error.io source (Progress.mk shop []) =
      (walk (fun state => state.1.shop.files) (paced source destination crew (.alone crew)) Error.io
        source (Progress.mk shop [], 0)).map Prod.fst id :=
    @walk_map _ _ _ _ _ _ Prod.fst _ hhandle source (Progress.mk shop [], 0)
  rw [copy, copyPaced, hmap]
  rcases walk (fun state => state.1.shop.files) (paced source destination crew (.alone crew))
    Error.io source (Progress.mk shop [], 0) with ⟨⟨progress, pauses⟩, _ | e⟩ <;> rfl

def Progress.attemptsPaced (source destination : Path) (crew : PoolId)
    (steps : Workshop → List (Action Effect)) (item : Item) (progress : Progress) : List Attempt :=
  if item.isDirectory then []
  else
    match Progress.errandFor source destination (some crew) item with
    | .error _ => []
    | .ok errand =>
      let shop := progress.shop.addErrand errand
      shop.attemptsBy crew
        (.call (.submit (.act (.copy progress.shop.errands.length) .done)) :: steps shop)

def pacedJournaled (source destination : Path) (crew : PoolId) (pace : Pace) (item : Item)
    (state : (Progress × Nat) × Journal) : ((Progress × Nat) × Journal) × Option Error :=
  let ((progress, pauses), journal) := state
  let first := pace.between pauses progress.shop
  let before := progress.takeAll crew first
  let (handled, _) := handlePaced source destination crew (pace.during pauses) item before
  let attempts := progress.shop.attemptsBy crew first ++
    (before.attemptsPaced source destination crew (pace.during pauses) item ++
      handled.shop.attemptsBy crew (pace.between (pauses + 1) handled.shop))
  let (next, failure) := paced source destination crew pace item (progress, pauses)
  ((next, journal.enter item attempts), failure)

def journaledCopyPaced (shop : Workshop) (source destination : Path) (crew : PoolId) (pace : Pace) :
    ((Progress × Nat) × Journal) × Option Error :=
  walk (fun state => state.1.1.shop.files) (pacedJournaled source destination crew pace) Error.io
    source ((Progress.mk shop [], 0), {})

def journalPaced (shop : Workshop) (source destination : Path) (crew : PoolId) (pace : Pace) :
    Journal :=
  (journaledCopyPaced shop source destination crew pace).1.2

theorem copyPaced_eq_journaledCopyPaced (shop : Workshop) (source destination : Path)
    (crew : PoolId) (pace : Pace) :
    copyPaced shop source destination crew pace =
      let (((progress, _), _), failure) := journaledCopyPaced shop source destination crew pace
      (progress.shop, match failure with | none => .ok progress.errands | some e => .error e) := by
  have hmap : walk (fun state : Progress × Nat => state.1.shop.files)
      (paced source destination crew pace) Error.io source (Progress.mk shop [], 0) =
      (journaledCopyPaced shop source destination crew pace).map Prod.fst id :=
    @walk_map _ _ _ _ _ _ Prod.fst (pacedJournaled source destination crew pace)
      (fun item state => rfl) source ((Progress.mk shop [], 0), {})
  rw [copyPaced, hmap]
  rcases journaledCopyPaced shop source destination crew pace with
    ⟨⟨⟨progress, pauses⟩, journal⟩, _ | e⟩ <;> rfl

/-- The errands of a copy in progress on a pool are those of the items so far, and each was
attempted or is in the hands of the pool. -/
structure Entrusts (source destination : Path) (crew : PoolId) (progress : Progress)
    (journal : Journal) : Prop where
  ids : progress.errands = List.range progress.shop.errands.length
  busy : ∃ pending, progress.shop.Busy crew (journal.fresh source destination (some crew))
    journal.attempts pending

namespace Entrusts

variable {journal : Journal} {handled : Progress} {steps : Workshop → List (Action Effect)}

theorem takeAll (h : Entrusts source destination crew progress journal)
    {actions : List (Action Effect)} (ha : ∀ action ∈ actions, action.isInternal) :
    Entrusts source destination crew (progress.takeAll crew actions)
      { journal with attempts := journal.attempts ++ progress.shop.attemptsBy crew actions } := by
  obtain ⟨pending, hbusy⟩ := h.busy
  obtain ⟨left, hleft⟩ := hbusy.takeAll fun action hm =>
    ⟨Action.isHarmless_of_isInternal (ha action hm), Action.actsOnly_of_isInternal (ha action hm)⟩
  refine ⟨?_, left, hleft⟩
  have hlength := hleft.accounts.length_eq.trans hbusy.accounts.length_eq.symm
  exact h.ids.trans (congrArg List.range hlength.symm)

/-- The errand for an item is made, and its task comes into the hands of the pool. -/
theorem offer (h : Entrusts source destination crew progress journal)
    (hd : item.isDirectory = false) {actions : List (Action Effect)}
    (ha : ∀ action ∈ actions, action.isInternal) :
    let shop := progress.shop.addErrand (errandOf source destination (some crew) item)
    let all := .call (.submit (.act (.copy progress.shop.errands.length) .done)) :: actions
    Entrusts source destination crew
      ⟨shop.takeAll crew all, progress.errands ++ [progress.shop.errands.length]⟩
      (journal.enter item (shop.attemptsBy crew all)) := by
  intro shop all
  obtain ⟨pending, hbusy⟩ := h.busy
  have hcalled := hbusy.call
    (show (errandOf source destination (some crew) item).outcome = some crew from rfl)
  obtain ⟨left, hleft⟩ := hcalled.takeAll fun action hm =>
    ⟨Action.isHarmless_of_isInternal (ha action hm), Action.actsOnly_of_isInternal (ha action hm)⟩
  have hlength : (shop.takeAll crew all).errands.length = progress.shop.errands.length + 1 := by
    refine hleft.accounts.length_eq.trans ?_
    rw [List.length_append, List.length_singleton, hbusy.accounts.length_eq]
  -- The call itself attempts nothing.
  have hnone : shop.attemptsBy crew all = (shop.take crew (.call (.submit
      (.act (.copy progress.shop.errands.length) .done)))).attemptsBy crew actions := by
    obtain ⟨pool, hp, -⟩ := hbusy.serves
    have hadded : shop.pool? crew = some pool := hp
    simp only [all, Workshop.attemptsBy]
    rw [Workshop.attemptBy?_of_effect? hadded rfl]
    rfl
  refine ⟨?_, left, ?_⟩
  · rw [hlength, List.range_succ, h.ids]
  · rw [Journal.fresh_enter_file hd, Journal.enter, hnone]
    exact hleft

theorem handle (h : Entrusts source destination crew progress journal)
    (hs : ∀ shop, ∀ action ∈ steps shop, action.isInternal)
    (hh : handlePaced source destination crew steps item progress = (handled, none)) :
    Entrusts source destination crew handled
      (journal.enter item (progress.attemptsPaced source destination crew steps item)) := by
  unfold handlePaced at hh
  unfold Progress.attemptsPaced
  cases hd : item.isDirectory with
  | true =>
    obtain ⟨pending, hbusy⟩ := h.busy
    rw [hd, if_pos rfl] at hh
    obtain ⟨hids, he, hp⟩ := makeDirectories_eq hh
    refine ⟨?_, pending, ?_⟩
    · rw [hids, he, h.ids]
    · rw [Journal.fresh_enter_directory hd, Journal.enter, if_pos rfl, List.append_nil]
      exact hbusy.congr hp he
  | false =>
    rw [hd, if_neg Bool.false_ne_true] at hh
    rw [if_neg Bool.false_ne_true]
    rw [errandFor_eq] at hh ⊢
    cases hr : refusalOf? source destination item with
    | some e =>
      rw [hr] at hh
      cases hh
    | none =>
      rw [hr] at hh
      have hoffer := h.offer hd
        (hs (progress.shop.addErrand (errandOf source destination (some crew) item)))
      simp only at hh
      split at hh
      · cases hh
      · cases hh
        exact hoffer

end Entrusts

/-- What a copy on a pool comes to, when it gets to its end. -/
theorem entrusts_of_copyPaced {pace : Pace} (hs : shop.Busy crew [] [] [])
    (hi : pace.IsInternal) (hc : copyPaced shop source destination crew pace = (next, .ok ids)) :
    let journal := journalPaced shop source destination crew pace
    ids = List.range journal.items.length ∧
      ∃ pending, next.Busy crew (journal.fresh source destination (some crew)) journal.attempts
        pending := by
  rw [copyPaced_eq_journaledCopyPaced] at hc
  rcases hw : journaledCopyPaced shop source destination crew pace with
    ⟨⟨⟨progress, pauses⟩, journal⟩, _ | e⟩
  · rw [hw] at hc
    cases hc
    have hstart : Entrusts source destination crew ⟨shop, []⟩ {} := by
      refine ⟨?_, [], hs⟩
      rw [hs.accounts.errands]
      rfl
    have hentrusts : Entrusts source destination crew progress journal := by
      refine walk_keeps_of_ok (I := fun state : (Progress × Nat) × Journal =>
        Entrusts source destination crew state.1.1 state.2) ?_ hstart hw
      rintro item ⟨⟨progress, pauses⟩, journal⟩ ⟨⟨after, pauses'⟩, journal'⟩ h hh
      have hbefore := h.takeAll (hi.between pauses progress.shop)
      rcases hhandle : handlePaced source destination crew (pace.during pauses) item
        (progress.takeAll crew (pace.between pauses progress.shop)) with ⟨handled, _ | e⟩
      · simp only [pacedJournaled, paced, hhandle] at hh
        cases hh
        simpa only [Journal.enter, List.append_assoc] using
          (hbefore.handle (hi.during pauses) hhandle).takeAll
            (hi.between (pauses + 1) handled.shop)
      · simp only [pacedJournaled, paced, hhandle] at hh
        cases hh
    obtain ⟨pending, hbusy⟩ := hentrusts.busy
    have hlength := hbusy.accounts.length_eq
    rw [Journal.fresh, List.length_map] at hlength
    simp only [journalPaced, hw]
    exact ⟨hlength ▸ hentrusts.ids, pending, hbusy⟩
  · rw [hw] at hc
    cases hc

end Tree
end TreePool
