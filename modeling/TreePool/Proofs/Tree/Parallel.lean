import TreePool.Proofs.Tree.Outcome
import TreePool.Proofs.Workshop.Shut

/-! # Copies on a pool

The files of a tree that is copied on a pool are copied by the workers, while the walk goes on or
after it is over, in whatever order. A schedule says which steps the threads of the pool take each
time that the walk pauses. Whatever it says, once a call that waits for the pool has returned, all
is as if each file had been copied right away: `copyAmid_refines`. -/

namespace TreePool
namespace Tree

open FileSystem

/-! ## Schedules -/

abbrev Schedule := Nat → List (Action Effect)

def Progress.takeAll (progress : Progress) (crew : PoolId) (actions : List (Action Effect)) :
    Progress :=
  { progress with shop := progress.shop.takeAll crew actions }

/-- Handles an item with a pause before and a pause after it. The number says how many pauses there
have been. -/
def amid (crew : PoolId) (schedule : Schedule) (handle : Item → Progress → Progress × Option Error)
    (item : Item) (state : Progress × Nat) : (Progress × Nat) × Option Error :=
  let (handled, failure) := handle item (state.1.takeAll crew (schedule state.2))
  ((handled.takeAll crew (schedule (state.2 + 1)), state.2 + 2), failure)

/-- Copies a tree on a pool whose threads take steps meanwhile. -/
def copyAmid (shop : Workshop) (source destination : Path) (crew : PoolId) (schedule : Schedule) :
    Workshop × Except Error (List ErrandId) :=
  let ((progress, _), failure) := walk (fun state : Progress × Nat => state.1.shop.files)
    (amid crew schedule (Progress.handle source destination (some crew))) Error.io source
    (Progress.mk shop [], 0)
  match failure with
  | none => (progress.shop, .ok progress.errands)
  | some e => (progress.shop, .error e)

/-- If nobody takes a step meanwhile, this is the copy on the pool. -/
theorem copyAmid_nil (shop : Workshop) (source destination : Path) (crew : PoolId) :
    copyAmid shop source destination crew (fun _ => []) =
      copy shop source destination (some crew) := by
  have hmap : walk (fun progress => progress.shop.files)
      (Progress.handle source destination (some crew)) Error.io source (Progress.mk shop []) =
      (walk (fun state => state.1.shop.files)
        (amid crew (fun _ => []) (Progress.handle source destination (some crew))) Error.io source
        (Progress.mk shop [], 0)).map Prod.fst id :=
    @walk_map _ _ _ _ _ _ Prod.fst _ (fun item state => rfl) source (Progress.mk shop [], 0)
  rw [copy, copyAmid, hmap]
  rcases walk (fun state => state.1.shop.files)
    (amid crew (fun _ => []) (Progress.handle source destination (some crew))) Error.io source
    (Progress.mk shop [], 0) with ⟨⟨progress, pauses⟩, _ | e⟩ <;> rfl

theorem copyAmid_eq_walk (shop : Workshop) (source destination : Path) (crew : PoolId)
    (schedule : Schedule) :
    let result := walk (fun state : Progress × Nat => state.1.shop.files)
      (amid crew schedule (Progress.handle source destination (some crew))) Error.io source
      (Progress.mk shop [], 0)
    copyAmid shop source destination crew schedule =
      (result.1.1.shop, result.2.elim (.ok result.1.1.errands) .error) := by
  intro result
  rcases hwalk : result with ⟨⟨progress, pauses⟩, failure⟩
  simp only [copyAmid, show walk _ _ _ _ _ = _ from hwalk]
  cases failure <;> rfl

/-! ## The crew at work -/

variable {fs : FileSystem} {shop : Workshop} {source destination : Path} {crew : PoolId}
variable {describes : (List Name → Prop) → FileSystem → Prop} {obstacle? : Item → Option IoError}
variable {succeeds : Item → Bool} {old : List Errand} {pending : List ErrandId} {done : List Find}
variable {item : Item} {progress : Progress} {schedule : Schedule} {actions : List (Action Effect)}

theorem Underway.takeAll (h : Course fs source destination describes obstacle? succeeds)
    (hdone : done <+: planFrom fs source)
    (hu : Underway describes succeeds source destination (some crew) old pending done progress)
    (hc : progress.shop.Crewed crew pending) (ha : ∀ action ∈ actions, action.IsHarmless) :
    ∃ left, Underway describes succeeds source destination (some crew) old left done
        (progress.takeAll crew actions) ∧
      (progress.takeAll crew actions).shop.Crewed crew left ∧
      ∀ caller, (progress.takeAll crew actions).shop.reply? crew caller = some .drained →
        progress.shop.reply? crew caller = some .drained ∨ left = [] := by
  obtain ⟨left, -, hcrewed, hleft, hdrained⟩ := hc.takeAll
    (I := fun pending shop => Underway describes succeeds source destination (some crew) old pending
      done ⟨shop, progress.errands⟩)
    (fun hu hf he => hu.congr hf he rfl)
    (fun hu hm hf he => hu.copy h hdone hm hf he rfl) ha hu
  exact ⟨left, hleft, hcrewed, hdrained⟩

theorem carry_of_crewed (hc : progress.shop.Crewed crew pending) (errand : Errand) :
    ∃ next, progress.carry (some crew) errand = (next, none) ∧
      next.shop.files = progress.shop.files ∧
      next.shop.errands = progress.shop.errands ++ [errand] ∧
      next.errands = progress.errands ++ [progress.shop.errands.length] ∧
      next.shop.Crewed crew (pending ++ [progress.shop.errands.length]) := by
  have hadded : (progress.shop.addErrand errand).Crewed crew pending := hc.congr rfl
  obtain ⟨shop, hsubmit, hf, he, hc⟩ := hadded.submit progress.shop.errands.length
  exact ⟨⟨shop, progress.errands ++ [progress.shop.errands.length]⟩,
    by simp only [Progress.carry, hsubmit], hf, he, rfl, hc⟩

theorem Underway.handle (h : Course fs source destination describes obstacle? succeeds)
    (hpre : done ++ [.ok item] <+: planFrom fs source)
    (hu : Underway describes succeeds source destination (some crew) old pending done progress)
    (hc : progress.shop.Crewed crew pending) :
    let verdict := verdict? source destination obstacle? (.ok item)
    (progress.handle source destination (some crew) item).2 = verdict ∧
      ∃ left, Underway describes succeeds source destination (some crew) old left
          (if verdict.isNone then done ++ [.ok item] else done)
          (progress.handle source destination (some crew) item).1 ∧
        (progress.handle source destination (some crew) item).1.shop.Crewed crew left := by
  rw [verdict?]
  cases hd : item.isDirectory with
  | true =>
    rw [handle_directory hd]
    have hstep := hu.directory h hpre hd
    cases ho : obstacle? item with
    | some e =>
      rw [ho] at hstep
      rw [hstep]
      exact ⟨rfl, pending, hu, hc⟩
    | none =>
      rw [ho] at hstep
      obtain ⟨next, hnext, hpools, hu'⟩ := hstep
      rw [hnext]
      exact ⟨rfl, pending, hu', hc.congr hpools⟩
  | false =>
    rw [handle_file hd]
    cases hr : refusalOf? source destination item with
    | some e => exact ⟨rfl, pending, hu, hc⟩
    | none =>
      obtain ⟨next, hnext, hf, he, hids, hc'⟩ :=
        carry_of_crewed hc (errandOf source destination (some crew) item)
      simp only [hnext]
      exact ⟨rfl, _, hu.file h hpre hd hf he hids, hc'⟩

/-- A copy amid steps of the pool keeps to its course too, but for what the pool still owes. -/
theorem Course.amid (h : Course fs source destination describes obstacle? succeeds)
    (hshop : shop.files = fs) (hc : shop.Crewed crew [])
    (ha : ∀ pauses, ∀ action ∈ schedule pauses, action.IsHarmless) :
    let verdict? := verdict? source destination obstacle?
    let result := walk (fun state : Progress × Nat => state.1.shop.files)
      (amid crew schedule (Progress.handle source destination (some crew))) Error.io source
      (Progress.mk shop [], 0)
    result.2 = (planFrom fs source).findSome? verdict? ∧
      ∃ pending, Underway describes succeeds source destination (some crew) shop.errands pending
          ((planFrom fs source).takeWhile fun find => (verdict? find).isNone) result.1.1 ∧
        result.1.1.shop.Crewed crew pending := by
  refine h.walk_of_step (I := fun done (state : Progress × Nat) => ∃ pending,
    Underway describes succeeds source destination (some crew) shop.errands pending done state.1 ∧
      state.1.shop.Crewed crew pending) ?_ ?_ ?_ hshop ⟨[], underway_nil h hshop (some crew), hc⟩
  · intro item state
    simp only [Tree.amid, coarse_handle source destination (some crew) item]
  · rintro done state ⟨pending, hu, -⟩
    exact ⟨_, hu.files⟩
  · rintro done find ⟨progress, pauses⟩ hpre ⟨pending, hu, hc⟩
    cases find with
    | error e => exact ⟨rfl, pending, hu, hc⟩
    | ok item =>
      obtain ⟨before, hu, hc, -⟩ :=
        hu.takeAll h ((List.prefix_append _ _).trans hpre) hc (ha pauses)
      obtain ⟨hverdict, left, hu, hc⟩ := hu.handle h hpre hc
      have hdone : (if (verdict? source destination obstacle? (.ok item)).isNone
          then done ++ [.ok item] else done) <+: planFrom fs source := by
        split
        · exact hpre
        · exact (List.prefix_append _ _).trans hpre
      obtain ⟨after, hu, hc, -⟩ := hu.takeAll h hdone hc (ha (pauses + 1))
      exact ⟨hverdict, after, hu, hc⟩

/-! ## The outcome -/

theorem exists_copyAmid_of_fails {P : Workshop → Prop} (hP : Workshop.Rests crew P)
    {left : FileSystem} {error : IoError}
    (hs : start shop.files source = .ok (rootItem source))
    (hl : shop.files.lay (target destination (rootItem source)) = (left, some error))
    (hshop : P shop) (ha : ∀ pauses, ∀ action ∈ schedule pauses, action.IsHarmless) :
    ∃ after, copyAmid shop source destination crew schedule = (after, .error (.io error)) ∧
      after.files = left ∧ after.errands = shop.errands ∧ P after := by
  -- Of the steps taken before the root is handled, only the pool knows.
  obtain ⟨hbefore, hf, he⟩ := hP.takeAll hshop (ha 0)
  let unmade : Workshop := { shop.takeAll crew (schedule 0) with files := left }
  have hunmade : P unmade := hP.congr hbefore rfl
  obtain ⟨hafter, hf', he'⟩ := hP.takeAll hunmade (ha 1)
  have hroot : (Progress.takeAll ⟨shop, []⟩ crew (schedule 0)).handle source destination (some crew)
      (rootItem source) = (⟨unmade, []⟩, some (.io error)) := by
    rw [handle_directory rfl, Progress.makeDirectories, Progress.takeAll, hf, hl]
    rfl
  have hb : below shop.files (rootItem source) = .ok (entriesOf shop.files (rootItem source)) := rfl
  have hamid : walk (fun state => state.1.shop.files)
      (amid crew schedule (Progress.handle source destination (some crew))) Error.io source
      (Progress.mk shop [], 0) =
      ((⟨unmade.takeAll crew (schedule 1), []⟩, 2), some (.io error)) := by
    refine walk_of_handle_error ?_ hb ?_
    · exact hs
    · rw [amid, hroot]
      rfl
  rw [copyAmid, hamid]
  exact ⟨unmade.takeAll crew (schedule 1), rfl, hf', he'.trans he, hafter⟩

/-- The crew has nothing to do with a copy that fails at the root of the tree. -/
theorem copyAmid_of_fails {left : FileSystem} {error : IoError}
    (hs : start shop.files source = .ok (rootItem source))
    (hl : shop.files.lay (target destination (rootItem source)) = (left, some error))
    (hc : shop.Crewed crew []) (ha : ∀ pauses, ∀ action ∈ schedule pauses, action.IsHarmless) :
    let inline := copy shop source destination none
    let amid := copyAmid shop source destination crew schedule
    amid.2 = inline.2 ∧ amid.1.files = inline.1.files ∧ amid.1.errands = inline.1.errands ∧
      amid.1.Crewed crew [] := by
  obtain ⟨after, hamid, hf, he, hafter⟩ :=
    exists_copyAmid_of_fails (Workshop.rests_of_crewed crew) hs hl hc ha
  rw [copy_of_fails hs hl, hamid]
  exact ⟨rfl, hf, he, hafter⟩

/-- A copy on a pool comes to the same as a copy of each file right away, however the steps of the
pool are scheduled, as soon as a call that waits for the pool has returned. -/
theorem copyAmid_refines {pool : Pool Effect} {rest : List (Action Effect)}
    (h : Separate shop.files source destination) (hpool : shop.pool? crew = some pool)
    (hr : pool.Reachable) (ho : pool.owner = .idle) (hload : pool.load Effect.work = 0)
    (hincoming : pool.incoming Effect.work = 0)
    (ha : ∀ pauses, ∀ action ∈ schedule pauses, action.IsHarmless)
    (hrest : ∀ action ∈ rest, action.IsHarmless) :
    let inline := copy shop source destination none
    let amid := copyAmid shop source destination crew schedule
    let final := amid.1.takeAll crew (.call .wait :: rest)
    final.reply? crew (amid.1.nextCaller crew) = some .drained →
      amid.2 = inline.2 ∧ final.files = inline.1.files ∧
        final.errands.map Errand.report = inline.1.errands.map Errand.report := by
  intro inline amid final hwait
  have hc : shop.Crewed crew [] := ⟨pool, hpool, .nil hr ho hincoming hload⟩
  have hwaiting : ∀ action ∈ .call .wait :: rest, action.IsHarmless := by
    intro action hm
    rcases List.mem_cons.mp hm with rfl | hm
    · exact ⟨by simp, rfl⟩
    · exact hrest action hm
  rcases h.course_or_fails with ⟨describes, obstacle?, succeeds, hcourse⟩ | ⟨hs, left, error, hl⟩
  · obtain ⟨hfailure, hu⟩ := hcourse.inline rfl
    obtain ⟨hfailure', pending, hu', hc'⟩ := hcourse.amid rfl hc ha
    rcases hwalk : walk (fun progress => progress.shop.files)
      (Progress.handle source destination none) Error.io source (Progress.mk shop []) with
      ⟨progress, failure⟩
    rcases hwalk' : walk (fun state => state.1.shop.files)
      (Tree.amid crew schedule (Progress.handle source destination (some crew))) Error.io source
      (Progress.mk shop [], 0) with ⟨⟨progress', pauses⟩, failure'⟩
    rw [hwalk] at hfailure hu
    rw [hwalk'] at hfailure' hu' hc'
    obtain rfl : failure' = failure := hfailure'.trans hfailure.symm
    have hinline : inline = (progress.shop, match failure' with
        | none => .ok progress.errands
        | some e => .error e) := by
      simp only [inline, copy, hwalk]
      cases failure' <;> rfl
    have hamid : amid = (progress'.shop, match failure' with
        | none => .ok progress'.errands
        | some e => .error e) := by
      simp only [amid, copyAmid, hwalk']
      cases failure' <;> rfl
    simp only [final, hamid, hinline] at hwait ⊢
    -- When the call returns, nothing is owed any more.
    obtain ⟨left, hu'', -, hdrained⟩ :=
      hu'.takeAll hcourse (List.takeWhile_prefix _) hc' hwaiting
    obtain rfl : left = [] := by
      refine (hdrained _ hwait).resolve_left fun hreply => ?_
      rw [Workshop.reply?_nextCaller] at hreply
      cases hreply
    refine ⟨?_, hcourse.unique hu''.files hu.files, hu''.map_report_eq hu⟩
    rw [hu'.ids, hu.ids]
  · obtain ⟨hanswer, hf, he, hc'⟩ := copyAmid_of_fails hs hl hc ha
    obtain ⟨-, hf', he'⟩ := hc'.takeAll_of_nil hwaiting
    exact ⟨hanswer, hf'.trans hf, congrArg _ (he'.trans he)⟩

def assembly : List (Action Effect) :=
  List.flatten [[.spawn none, .spawn none, .owner], List.replicate 3 (.worker 0 none),
    List.replicate 3 (.worker 1 none), [.owner, .owner]]

/-- A directory with two files, and a pool of two workers. -/
def twoFiles : Workshop :=
  { files :=
    { entries := [(Bytes.ofString "a", .directory
        [(Bytes.ofString "x", .file (Bytes.ofString "1")),
          (Bytes.ofString "y", .file (Bytes.ofString "2"))])]
      home := [] }
    pools := ((Pool.start 2 false).play? assembly).toList }

theorem exists_pool_twoFiles : ∃ pool, twoFiles.pool? 0 = some pool ∧ pool.Reachable ∧
    pool.owner = .idle ∧ pool.load Effect.work = 0 ∧ pool.incoming Effect.work = 0 := by
  have hstart : (Pool.start 2 false : Pool Effect).Reachable := .start false (by decide)
  obtain ⟨pool, hpool, htest⟩ : ∃ pool, (Pool.start 2 false).play? assembly = some pool ∧
      decide (pool.owner = .idle ∧ pool.load Effect.work = 0 ∧ pool.incoming Effect.work = 0) :=
    (Option.any_eq_true _ _).mp (by decide +kernel)
  refine ⟨pool, ?_, hstart.play? hpool, of_decide_eq_true htest⟩
  rw [Workshop.pool?, twoFiles, hpool]
  rfl

/-- The first worker pulls the first task, and the second one copies the second file before the
first one goes on. -/
def reversed : Schedule
  | 0 => [.worker 0 none, .worker 0 none, .worker 1 none, .worker 1 none]
  | 3 => List.replicate 4 (.worker 0 none)
  | 5 => List.replicate 5 (.worker 1 none)
  | _ => []

/-- The workers come to their ends, and the caller that waits gets to know. -/
def ending : List (Action Effect) :=
  List.flatten [List.replicate 3 (.worker 0 none), List.replicate 2 (.worker 1 none),
    [.caller 2 none]]

theorem copyAmid_refines_reversed :
    let inline := copy twoFiles (.ofString "a") (.ofString "b") none
    let amid := copyAmid twoFiles (.ofString "a") (.ofString "b") 0 reversed
    let final := amid.1.takeAll 0 (.call .wait :: ending)
    amid.1.errands.map Errand.success = [false, true] ∧
      amid.2 = inline.2 ∧ final.files = inline.1.files ∧
        final.errands.map Errand.report = inline.1.errands.map Errand.report := by
  intro inline amid final
  have horder : amid.1.errands.map Errand.success = [false, true] := by decide +kernel
  have hreply : final.reply? 0 (amid.1.nextCaller 0) = some .drained := by decide +kernel
  obtain ⟨pool, hshop, hreachable, howner, hload, hincoming⟩ := exists_pool_twoFiles
  let a := Bytes.ofString "a"
  let b := Bytes.ofString "b"
  have ha : twoFiles.files.kindAt [a] = some .directory := by decide
  have hsource : Trail twoFiles.files.kindAt true linkLimit [] [a] [[], [a]]
      (.ok (.taken [a] .directory)) :=
    .enter (by decide) ⟨by decide, by decide, by decide⟩ ha (by simp) (.stop ha)
  have hdestination : Denotes twoFiles.files (.ofString "b") [] [b] :=
    .missing (show _ = [] ++ b :: [] by decide) (.stop (by decide))
      ⟨by decide, by decide, by decide⟩ (by decide)
  have hseparate : Separate twoFiles.files (.ofString "a") (.ofString "b") :=
    .of_no_links (by decide) (by decide) (by decide)
      (kindAt_ne_link_of_contents (by decide +kernel)) hsource hdestination (by decide) (by decide)
  have hreversed (pauses : Nat) : ∀ action ∈ reversed pauses, action.IsHarmless := by
    unfold reversed
    split <;> decide
  exact ⟨horder, copyAmid_refines hseparate hshop hreachable howner hload hincoming
    hreversed (by decide) hreply⟩

end Tree
end TreePool
