import TreePool.CommandLine.Run
import TreePool.Proofs.Tree.Journal
import TreePool.Proofs.Workshop.Ready

/-! # The plan of a run

A run copies a tree right away, or on a pool whose threads take their steps in any order. A plan
says which steps they take while the pool is built, while the walk goes on, while the run waits and
while the pool is destroyed. The command line lets them take their turns in a fixed order, and that
is a plan too, which gets the run to its end: `exists_carries_copy`.
-/

namespace TreePool
namespace CommandLine

open TreePool.Tree

variable {files : FileSystem} {source destination : Path} {workers : Int} {options : Options}

def conclude (options : Options) (workers : Int) (copied : Copied) : Conclusion :=
  let run : Conclusion :=
    { files := copied.shop.files, log := options.startLine workers :: copied.log, code := 1 }
  match copied.result with
  | .error e => run.abort e
  | .ok ids => summarize run (copied.shop.errandsAt ids) copied.outcome options.verbose

theorem execute_eq_conclude {units : Option Nat}
    (hw : options.workerCount units files = .ok workers) :
    execute units files options =
      conclude options workers (copy files workers options.source options.destination) := by
  simp only [execute, hw]
  rfl

theorem run_eq_conclude {units : Option Nat} {arguments : List Bytes}
    (hp : Options.parse arguments = .ok options)
    (hw : options.workerCount units files = .ok workers) :
    run units files arguments =
      conclude options workers (copy files workers options.source options.destination) := by
  simp only [run, hp]
  exact execute_eq_conclude hw

/-- The steps that the threads of a pool take during a run. -/
structure Plan where
  building : List (Action Effect)
  copying : Pace
  waiting : List (Action Effect)
  destroying : List (Action Effect)

namespace Plan

structure IsInternal (plan : Plan) : Prop where
  building : ∀ action ∈ plan.building, action.isInternal
  copying : plan.copying.IsInternal
  waiting : ∀ action ∈ plan.waiting, action.isInternal
  destroying : ∀ action ∈ plan.destroying, action.isInternal

section

variable (plan : Plan) (files : FileSystem) (size : Nat) (source destination : Path)

def built : Workshop :=
  ({ files } : Workshop).addPool (.start size false) |>.takeAll 0 plan.building

def walked : Workshop × Except Error (List ErrandId) :=
  copyPaced (plan.built files size) source destination 0 plan.copying

def waited : Workshop :=
  (plan.walked files size source destination).1.takeAll 0 (.call .wait :: plan.waiting)

def destroyed : Workshop :=
  (plan.waited files size source destination).takeAll 0 (.destroy :: plan.destroying)

/-- The steps get the run to its end: the pool comes to be in use, the calls by which tasks are
submitted and the one that waits for the pool return, and then the pool comes to be destroyed. -/
structure Completes : Prop where
  built : ((plan.built files size).pool? 0).map Pool.owner = some .idle
  submitted :
    ((plan.walked files size source destination).1.pool? 0).map Pool.isQuiet = some true
  waited : (plan.waited files size source destination).reply? 0
    ((plan.walked files size source destination).1.nextCaller 0) = some .drained
  destroyed : ((plan.destroyed files size source destination).pool? 0).map Pool.owner =
    some .closed

def copied : Copied where
  shop := plan.destroyed files size source destination
  result := (plan.walked files size source destination).2
  outcome := (((plan.waited files size source destination).pool? 0).map Pool.outcome).getD true
  log := ((((plan.destroyed files size source destination).pool? 0).map Pool.log).getD []).map
    poolLine

def journal : Journal :=
  let journal := journalPaced (plan.built files size) source destination 0 plan.copying
  { journal with
    attempts := journal.attempts ++ (plan.walked files size source destination).1.attemptsBy 0
      (.call .wait :: plan.waiting) }

end

end Plan

/-- How a number of workers may come to copy a tree, and the journal of that. -/
inductive Carries (files : FileSystem) (source destination : Path) :
    Int → Copied → Journal → Prop where
  | inline {workers : Int} (h : workers ≤ 0) :
      Carries files source destination workers (copyInline { files } source destination)
        (Tree.journal { files } source destination)
  | pooled {workers : Int} (h : 0 < workers) (plan : Plan) (hi : plan.IsInternal)
      (hc : plan.Completes files workers.toNat source destination) :
      Carries files source destination workers
        (plan.copied files workers.toNat source destination)
        (plan.journal files workers.toNat source destination)

/-- The turns that the threads of the pool take in a run of the command line make a plan. -/
theorem exists_carries_copy (files : FileSystem) (source destination : Path) (workers : Int) :
    ∃ book, Carries files source destination workers (copy files workers source destination)
      book := by
  rcases lt_or_ge 0 workers with h | h
  · have hsize : 1 ≤ workers.toNat := by omega
    obtain ⟨building, hbuilding, hbuild, hready⟩ := Workshop.exists_build files hsize
    have hready' := hready.copy source destination
    obtain ⟨waiting, hwaiting, hwait, hdrained, hwaited⟩ := hready'.exists_wait
    obtain ⟨destroying, hdestroying, hdestroy, hclosed⟩ := hwaited.exists_destroy
    let plan : Plan := ⟨building, .alone 0, waiting, destroying⟩
    have hwalked : plan.walked files workers.toNat source destination =
        Tree.copy (({ files } : Workshop).build workers.toNat false none) source destination
          (some 0) := by
      rw [hbuild]
      exact copyPaced_alone _ source destination 0
    have hplan : plan.copied files workers.toNat source destination =
        copy files workers source destination := by
      rw [copy, if_pos h]
      unfold Plan.copied Plan.destroyed Plan.waited
      rw [hwalked, ← hwait, ← hdestroy]
      rfl
    have hcompletes : plan.Completes files workers.toNat source destination := by
      obtain ⟨-, built, hb, hbuilt⟩ := hready
      obtain ⟨-, walked, hw, hwalk⟩ := hready'
      refine ⟨?_, ?_, ?_, ?_⟩
      · rw [Plan.built, ← hbuild, hb, Option.map_some, hbuilt.idle]
      · rw [hwalked, hw, Option.map_some, hwalk.quiet]
      · unfold Plan.waited
        rw [hwalked, ← hwait]
        exact hdrained
      · unfold Plan.destroyed Plan.waited
        rw [hwalked, ← hwait, ← hdestroy]
        exact hclosed
    have hinternal : plan.IsInternal :=
      ⟨hbuilding, Pace.isInternal_alone 0, hwaiting, hdestroying⟩
    refine ⟨plan.journal files workers.toNat source destination, ?_⟩
    rw [← hplan]
    exact .pooled h plan hinternal hcompletes
  · refine ⟨Tree.journal { files } source destination, ?_⟩
    rw [copy, if_neg (not_lt.mpr h)]
    exact .inline h

end CommandLine
end TreePool
