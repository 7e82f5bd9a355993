import TreePool.Proofs.Tree.Parallel

/-! # How far a copy gets

A copy that ends in an error has gone along its plan up to a find that stops it. That is so without
a pool, on a pool in use and on one that was destroyed, however the steps of the pool are scheduled.
As soon as a call that waits for the pool has returned, the finds before that one say all about
files and errands: `Performs.stopped`.
-/

namespace TreePool
namespace Tree

open FileSystem

variable {fs : FileSystem} {shop after : Workshop} {source destination : Path} {crew : PoolId}
variable {describes : (List Name → Prop) → FileSystem → Prop} {obstacle? : Item → Option IoError}
variable {succeeds : Item → Bool} {old : List Errand} {done : List Find} {find : Find} {item : Item}
variable {progress : Progress} {schedule : Schedule}

/-! ## What stops a copy -/

/-- What ends a copy at a find, if anything does. A pool that was destroyed takes no file. -/
def stop? (destroyed : Bool) (source destination : Path) (obstacle? : Item → Option IoError) :
    Find → Option Error
  | .error e => some (.io e)
  | .ok item =>
    if item.isDirectory then (obstacle? item).map .io
    else (refusalOf? source destination item).or (if destroyed then some .poolDestroyed else none)

theorem stop?_directory (hd : item.isDirectory = true) (destroyed : Bool) :
    stop? destroyed source destination obstacle? (.ok item) = (obstacle? item).map .io :=
  if_pos hd

theorem stop?_file (hd : item.isDirectory = false) (destroyed : Bool) :
    stop? destroyed source destination obstacle? (.ok item) =
      (refusalOf? source destination item).or
        (if destroyed then some .poolDestroyed else none) :=
  if_neg (by simp [hd])

theorem stop?_false (source destination : Path) (obstacle? : Item → Option IoError) :
    stop? false source destination obstacle? = verdict? source destination obstacle? := by
  funext find
  cases find with
  | error => rfl
  | ok item => simp [stop?, verdict?]

/-! ## Pools that were destroyed -/

/-- A copy that went along a plan so far on a pool that was destroyed. It came across no file that
did not end it. -/
structure Barred (describes : (List Name → Prop) → FileSystem → Prop) (crew : PoolId)
    (old : List Errand) (done : List Find) (shop : Workshop) : Prop where
  files : describes (Finished old.length [] done) shop.files
  carried_eq : carried done = []
  errands : ∃ idle, shop.errands = old ++ idle ∧ ∀ errand ∈ idle, errand.all = []
  shut : shop.Shut crew

namespace Barred

theorem congr (hb : Barred describes crew old done shop) (hf : after.files = shop.files)
    (he : after.errands = shop.errands) (hs : after.Shut crew) :
    Barred describes crew old done after :=
  ⟨hf ▸ hb.files, hb.carried_eq, he ▸ hb.errands, hs⟩

theorem takeAll (hb : Barred describes crew old done shop) (actions : List (Action Effect)) :
    Barred describes crew old done (shop.takeAll crew actions) := by
  obtain ⟨hs, hf, he⟩ := hb.shut.takeAll actions
  exact hb.congr hf he hs

theorem handle (h : Course fs source destination describes obstacle? succeeds)
    (hpre : done ++ [.ok item] <+: planFrom fs source)
    (hb : Barred describes crew old done progress.shop) :
    let stop := stop? true source destination obstacle? (.ok item)
    let handled := progress.handle source destination (some crew) item
    handled.2 = stop ∧
      Barred describes crew old (if stop.isNone then done ++ [.ok item] else done)
        handled.1.shop := by
  cases hd : item.isDirectory with
  | true =>
    rw [handle_directory hd, stop?_directory hd, Progress.makeDirectories]
    have hstep := h.directory hpre hd (settled_finished (List.Subset.refl _))
      (Underway.not_finished h.orderly hpre) hb.files
    cases ho : obstacle? item with
    | some e =>
      rw [ho] at hstep
      rw [hstep]
      exact ⟨rfl, hb⟩
    | none =>
      rw [ho] at hstep
      obtain ⟨made, hmade, hdescribes⟩ := hstep
      rw [hmade]
      refine ⟨rfl, ?_, ?_, hb.errands, hb.shut.congr rfl⟩
      · rw [← finished_concat_directory hd] at hdescribes
        exact hdescribes
      · exact (carried_concat_directory hd done).trans hb.carried_eq
  | false =>
    rw [handle_file hd, stop?_file hd]
    cases hr : refusalOf? source destination item with
    | some e => exact ⟨rfl, hb⟩
    | none =>
      -- The errand is made, and then the pool refuses the task.
      let errand := errandOf source destination (some crew) item
      have hadded : (progress.shop.addErrand errand).Shut crew := hb.shut.congr rfl
      obtain ⟨next, hsubmit, hf, he, hs⟩ :=
        hadded.submit (.act (.copy progress.shop.errands.length) .done)
      have hcarry : progress.carry (some crew) errand =
          ({ progress with shop := next }, some .poolDestroyed) := by
        simp only [Progress.carry, hsubmit]
      simp only [errand] at hcarry
      rw [hcarry]
      have hfiles := hb.files
      rw [← show next.files = progress.shop.files from hf] at hfiles
      obtain ⟨idle, hidle, hall⟩ := hb.errands
      refine ⟨rfl, hfiles, hb.carried_eq, ⟨idle ++ [errand], ?_, ?_⟩, hs⟩
      · rw [he, Workshop.addErrand, hidle, List.append_assoc]
      · intro other hm
        rcases List.mem_append.mp hm with hm | hm
        · exact hall other hm
        · rw [List.mem_singleton.mp hm]
          rfl

end Barred

/-- A copy amid steps of a destroyed pool keeps to its course up to the first file. -/
theorem Course.amid_of_shut (h : Course fs source destination describes obstacle? succeeds)
    (hshop : shop.files = fs) (hs : shop.Shut crew) :
    let stop? := stop? true source destination obstacle?
    let result := walk (fun state : Progress × Nat => state.1.shop.files)
      (Tree.amid crew schedule (Progress.handle source destination (some crew))) Error.io source
      (Progress.mk shop [], 0)
    result.2 = (planFrom fs source).findSome? stop? ∧
      Barred describes crew shop.errands
        ((planFrom fs source).takeWhile fun find => (stop? find).isNone) result.1.1.shop := by
  have hstart : Barred describes crew shop.errands [] shop :=
    ⟨(underway_nil h hshop none).files, rfl, ⟨[], by simp⟩, hs⟩
  refine h.walk_of_step (I := fun done (state : Progress × Nat) =>
    Barred describes crew shop.errands done state.1.shop) ?_ ?_ ?_ hshop hstart
  · intro item state
    simp only [Tree.amid, coarse_handle source destination (some crew) item]
  · exact fun done state hb => ⟨_, hb.files⟩
  · rintro done find ⟨progress, pauses⟩ hpre hb
    cases find with
    | error e => exact ⟨rfl, hb⟩
    | ok item =>
      have hbefore : Barred describes crew shop.errands done
          (progress.takeAll crew (schedule pauses)).shop := hb.takeAll (schedule pauses)
      obtain ⟨hstop, hafter⟩ := hbefore.handle h hpre
      exact ⟨hstop, hafter.takeAll (schedule (pauses + 1))⟩

/-! ## Copies that are carried out -/

/-- A pool that may be given to a copy: one in use that is not about to change files or errands, or
one that was destroyed. -/
inductive Serves (pool : Pool Effect) : Prop
  | running (ho : pool.owner = .idle) (hl : pool.load Effect.work = 0)
      (hi : pool.incoming Effect.work = 0)
  | destroyed (ho : pool.owner = .closed) (hf : pool.failure = none)

/-- A copy leads from one workshop to another, with an answer: without a pool, or on one whose
threads take steps by a schedule meanwhile, and then until a call that waits for it has returned. -/
inductive Performs (shop : Workshop) (source destination : Path) :
    Option PoolId → Workshop → Except Error (List ErrandId) → Prop
  | inline {after : Workshop} {answer : Except Error (List ErrandId)}
      (h : copy shop source destination none = (after, answer)) :
      Performs shop source destination none after answer
  | pooled {crew : PoolId} {pool : Pool Effect} {schedule : Schedule} {rest : List (Action Effect)}
      {amid : Workshop} {answer : Except Error (List ErrandId)}
      (hpool : shop.pool? crew = some pool) (hr : pool.Reachable) (hserves : Serves pool)
      (hschedule : ∀ pauses, ∀ action ∈ schedule pauses, action.IsHarmless)
      (hrest : ∀ action ∈ rest, action.IsHarmless)
      (h : copyAmid shop source destination crew schedule = (amid, answer))
      (hwait : (amid.takeAll crew (.call .wait :: rest)).reply? crew (amid.nextCaller crew) =
        some .drained) :
      Performs shop source destination (some crew) (amid.takeAll crew (.call .wait :: rest)) answer

def GivenUp (shop : Workshop) (crew : Option PoolId) : Prop :=
  ∃ pool, crew.bind shop.pool? = some pool ∧ pool.owner = .closed

/-- A copy that ended in an error, as far as it got along its plan. -/
structure Stopped (describes : (List Name → Prop) → FileSystem → Prop)
    (obstacle? : Item → Option IoError) (succeeds : Item → Bool) (shop after : Workshop)
    (source destination : Path) (crew : Option PoolId) (destroyed : Bool) (front : List Find)
    (find : Find) (back : List Find) (error : Error) : Prop where
  plan : planFrom shop.files source = front ++ find :: back
  passed : ∀ earlier ∈ front, stop? destroyed source destination obstacle? earlier = none
  failed : stop? destroyed source destination obstacle? find = some error
  givenUp : destroyed = true ↔ GivenUp shop crew
  files : describes (Finished shop.errands.length [] front) after.files
  errands : ∃ idle, after.errands = shop.errands ++ ((carried front).map fun item =>
    (errandOf source destination crew item).attempted (succeeds item)) ++ idle ∧
      ∀ errand ∈ idle, errand.all = []

namespace Stopped

variable {finds : List Find} {error : Error} {destroyed : Bool}

theorem exists_first {verdict : Find → Option Error} (h : finds.findSome? verdict = some error) :
    ∃ front find back, finds = front ++ find :: back ∧ verdict find = some error ∧
      (∀ earlier ∈ front, verdict earlier = none) ∧
      (finds.takeWhile fun find => (verdict find).isNone) = front := by
  obtain ⟨front, find, back, hsplit, hfind, hfront⟩ := List.findSome?_eq_some_iff.mp h
  refine ⟨front, find, back, hsplit, hfind, hfront, ?_⟩
  rw [hsplit, List.takeWhile_append_of_pos fun earlier hm => by simp [hfront earlier hm],
    List.takeWhile_cons_of_neg (by simp [hfind]), List.append_nil]

/-- A copy that kept to its course up to an error was stopped there, once nothing is left to be
carried out. -/
theorem of_underway {crew : Option PoolId} (hopen : ¬ GivenUp shop crew)
    (hfailure : (planFrom shop.files source).findSome?
      (verdict? source destination obstacle?) = some error)
    (hu : Underway describes succeeds source destination crew shop.errands []
      ((planFrom shop.files source).takeWhile fun find =>
        (verdict? source destination obstacle? find).isNone) progress) :
    ∃ front find back, Stopped describes obstacle? succeeds shop progress.shop source destination
      crew false front find back error := by
  obtain ⟨front, find, back, hsplit, hfind, hfront, htake⟩ := exists_first hfailure
  rw [htake] at hu
  rw [← stop?_false] at hfind hfront
  refine ⟨front, find, back, hsplit, hfront, hfind, by simp [hopen], hu.files, [], ?_, by simp⟩
  rw [hu.errands_eq, List.append_nil]

end Stopped

theorem isHarmless_wait {rest : List (Action Effect)} (h : ∀ action ∈ rest, action.IsHarmless) :
    ∀ action ∈ .call .wait :: rest, action.IsHarmless := by
  intro action hm
  rcases List.mem_cons.mp hm with rfl | hm
  · decide
  · exact h action hm

theorem Underway.takeAll_of_drained (h : Course fs source destination describes obstacle? succeeds)
    (hdone : done <+: planFrom fs source) {pending : List ErrandId}
    (hu : Underway describes succeeds source destination (some crew) old pending done progress)
    (hc : progress.shop.Crewed crew pending) {rest : List (Action Effect)}
    (hrest : ∀ action ∈ rest, action.IsHarmless)
    (hwait : (progress.shop.takeAll crew (.call .wait :: rest)).reply? crew
      (progress.shop.nextCaller crew) = some .drained) :
    Underway describes succeeds source destination (some crew) old [] done
      (progress.takeAll crew (.call .wait :: rest)) := by
  obtain ⟨left, hu', -, hdrained⟩ := hu.takeAll h hdone hc (isHarmless_wait hrest)
  obtain rfl : left = [] := by
    refine (hdrained _ hwait).resolve_left fun hreply => ?_
    rw [Workshop.reply?_nextCaller] at hreply
    cases hreply
  exact hu'

theorem eq_some_of_elim_eq_error {failure : Option Error} {ids : List ErrandId} {error : Error}
    (h : failure.elim (Except.ok ids) Except.error = .error error) : failure = some error := by
  cases failure with
  | none => cases h
  | some => exact congrArg some (Except.error.inj h)

/-- A copy that ended in an error was stopped by the first find that can stop it. -/
theorem Performs.stopped (h : Course shop.files source destination describes obstacle? succeeds)
    {crew : Option PoolId} {error : Error}
    (hp : Performs shop source destination crew after (.error error)) :
    ∃ destroyed front find back, Stopped describes obstacle? succeeds shop after source destination
      crew destroyed front find back error := by
  cases hp with
  | inline hcopy =>
    rw [copy_eq_walk] at hcopy
    obtain ⟨rfl, hanswer⟩ := Prod.mk.inj hcopy
    obtain ⟨hfailure, hu⟩ := h.inline rfl
    rw [eq_some_of_elim_eq_error hanswer] at hfailure
    have hopen : ¬ GivenUp shop none := by simp [GivenUp]
    exact ⟨false, Stopped.of_underway hopen hfailure.symm hu⟩
  | @pooled crew pool schedule rest _ _ hpool hr hserves hschedule hrest hcopy hwait =>
    rw [copyAmid_eq_walk] at hcopy
    obtain ⟨rfl, hanswer⟩ := Prod.mk.inj hcopy
    cases hserves with
    | running ho hl hi =>
      have hc : shop.Crewed crew [] := ⟨pool, hpool, .nil hr ho hi hl⟩
      obtain ⟨hfailure, pending, hu, hc'⟩ := h.amid rfl hc hschedule
      rw [eq_some_of_elim_eq_error hanswer] at hfailure
      have hu' := hu.takeAll_of_drained h (List.takeWhile_prefix _) hc' hrest hwait
      have hopen : ¬ GivenUp shop (some crew) := by simp [GivenUp, hpool, ho]
      exact ⟨false, Stopped.of_underway hopen hfailure.symm hu'⟩
    | destroyed ho hf =>
      obtain ⟨hfailure, hb⟩ := h.amid_of_shut rfl ⟨pool, hpool, hr, ho, hf⟩
      rw [eq_some_of_elim_eq_error hanswer] at hfailure
      obtain ⟨front, find, back, hsplit, hfind, hfront, htake⟩ :=
        Stopped.exists_first hfailure.symm
      have hb' := hb.takeAll (.call .wait :: rest)
      rw [htake] at hb'
      obtain ⟨idle, hidle, hall⟩ := hb'.errands
      have hgiven : GivenUp shop (some crew) := ⟨pool, hpool, ho⟩
      refine ⟨true, front, find, back, hsplit, hfront, hfind, by simp [hgiven], hb'.files, idle, ?_,
        hall⟩
      rw [hidle, hb'.carried_eq, List.map_nil, List.append_nil]

end Tree
end TreePool
