import TreePool.Proofs.CommandLine.Plan
import TreePool.Proofs.Errand.Report

/-! # The exit status of a run

Whatever the plan of a run, when it gets as far as the summary, each errand has the verdict of its
only attempt, the outcome of the pool says the same as the summary, and the exit code is zero
exactly when all attempts have succeeded: `run_truthful`.
-/

namespace TreePool
namespace CommandLine

open TreePool.Tree

variable {files : FileSystem} {source destination : Path} {workers : Int} {result : Copied}
variable {book : Journal} {ids : List ErrandId} {options : Options}

/-! ## What runs come to -/

structure Writable (verbose : Bool) (errands : List Errand) : Prop where
  reports : verbose = true → (reportLines errands).2 = none
  summary : ∃ value, (Summary.collect errands).toJson = .ok value

theorem code_summarize {run : Conclusion} {errands : List Errand} {outcome verbose : Bool}
    (h : Writable verbose errands) :
    (summarize run errands outcome verbose).code =
      if outcome && (Summary.collect errands).isSuccess then 0 else 1 := by
  obtain ⟨value, hvalue⟩ := h.summary
  cases verbose with
  | false => simp [summarize, hvalue]
  | true =>
    rcases hlines : reportLines errands with ⟨lines, failure⟩
    have hnone := h.reports rfl
    rw [hlines] at hnone
    cases hnone
    simp [summarize, hlines, hvalue]

/-- The outcome that the errands of a run are bound to: that of its pool, if it has one. -/
def outcomeOf (workers : Int) : Option OutcomeId := if 0 < workers then some 0 else none

/-- What a copy tells of itself is true of the attempts that were made. -/
structure Truthful (options : Options) (workers : Int) (result : Copied) (book : Journal)
    (ids : List ErrandId) : Prop where
  /-- There is an errand for each item that is no directory, in the order of the walk. -/
  items : ids = List.range book.items.length
  /-- Each errand was attempted once. -/
  once : (book.attempts.map Attempt.errand).Perm ids
  /-- An errand tells what its attempt came to, and nothing else. -/
  verdict : ∀ attempt ∈ book.attempts, result.shop.errands[attempt.errand]? =
    book.items[attempt.errand]?.map fun item =>
      (errandOf options.source options.destination (outcomeOf workers) item).attempted
        attempt.success
  outcome : result.outcome =
    if 0 < workers then (Summary.collect (result.shop.errandsAt ids)).isSuccess else true
  total :
    let summary := Summary.collect (result.shop.errandsAt ids)
    summary.total = summary.succeeded + summary.failed.length
  code : Writable options.verbose (result.shop.errandsAt ids) →
    (conclude options workers result).code = if book.attempts.all Attempt.success then 0 else 1

theorem errands_of_accounts {shop : Workshop} {outcome : Option OutcomeId}
    (h : shop.Accounts (book.fresh source destination outcome) book.attempts []) :
    (∀ errand ∈ shop.errands, errand.IsDecided) ∧
      shop.errands.all Errand.success = book.attempts.all Attempt.success := by
  have hlength := h.length_eq
  have hperm := h.once
  rw [List.append_nil] at hperm
  have hdecided : ∀ errand ∈ shop.errands, ∃ attempt ∈ book.attempts, ∃ item,
      errand = (errandOf source destination outcome item).attempted attempt.success := by
    intro errand hm
    obtain ⟨id, hid⟩ := List.mem_iff_getElem?.mp hm
    have hlt : id < (book.fresh source destination outcome).length :=
      hlength ▸ (List.getElem?_eq_some_iff.mp hid).1
    obtain ⟨attempt, hattempt, rfl⟩ :=
      List.mem_map.mp (hperm.mem_iff.mpr (List.mem_range.mpr hlt))
    rw [h.getElem?_of_nil hattempt, Journal.fresh, List.getElem?_map, Option.map_map] at hid
    obtain ⟨item, -, rfl⟩ := Option.map_eq_some_iff.mp hid
    exact ⟨attempt, hattempt, item, rfl⟩
  refine ⟨?_, ?_⟩
  · intro errand hm
    obtain ⟨attempt, -, item, rfl⟩ := hdecided errand hm
    rw [Errand.IsDecided, Errand.attempted_eq]
    cases attempt.success <;> rfl
  · apply Bool.eq_iff_iff.mpr
    rw [List.all_eq_true, List.all_eq_true]
    constructor
    · intro hall attempt hm
      have hid : attempt.errand < (book.fresh source destination outcome).length :=
        List.mem_range.mp (hperm.mem_iff.mp (List.mem_map_of_mem hm))
      have hget := h.getElem?_of_nil hm
      rw [List.getElem?_eq_getElem hid, Option.map_some] at hget
      simpa using hall _ (List.mem_of_getElem? hget)
    · intro hall errand hm
      obtain ⟨attempt, hattempt, item, rfl⟩ := hdecided errand hm
      simpa using hall attempt hattempt

theorem truthful_of_accounts (hresult : result.result = .ok ids)
    (hids : ids = List.range book.items.length)
    (h : result.shop.Accounts (book.fresh options.source options.destination (outcomeOf workers))
      book.attempts [])
    (houtcome : result.outcome = if 0 < workers then book.attempts.all Attempt.success else true) :
    Truthful options workers result book ids := by
  have hlength := h.length_eq
  rw [Journal.fresh, List.length_map] at hlength
  have herrands : result.shop.errandsAt ids = result.shop.errands := by
    rw [hids, ← hlength, Workshop.errandsAt_range]
  obtain ⟨hdecided, hall⟩ := errands_of_accounts h
  have hsuccess := Summary.isSuccess_eq hdecided
  rw [hall] at hsuccess
  refine ⟨hids, ?_, ?_, ?_, ?_, ?_⟩
  · have hperm := h.once
    rwa [List.append_nil, Journal.fresh, List.length_map, ← hids] at hperm
  · intro attempt hm
    rw [h.getElem?_of_nil hm, Journal.fresh, List.getElem?_map, Option.map_map]
    rfl
  · rw [herrands, hsuccess, houtcome]
  · rw [herrands]
    exact Summary.total_eq hdecided
  · intro hwritable
    rw [conclude, hresult]
    refine (code_summarize hwritable).trans ?_
    rw [herrands, hsuccess, houtcome]
    split_ifs <;> simp_all

/-! ## On a pool -/

namespace Plan

variable {plan : Plan} {size : Nat}

theorem busy_built (hi : plan.IsInternal) (hs : 1 ≤ size)
    (hb : ((plan.built files size).pool? 0).map Pool.owner = some .idle) :
    (plan.built files size).Busy 0 [] [] [] := by
  let start : Pool Effect := .start size false
  have hstart : (({ files } : Workshop).addPool start).pool? 0 = some start := rfl
  have hreachable : start.Reachable := .start false hs
  obtain ⟨taken, moved, hsubset, hplay, hbuilt⟩ :=
    Workshop.takeAll_of_actsOnly hstart (Pool.actsOnly_start size false)
      fun action hm => Action.actsOnly_of_isInternal (hi.building action hm)
  have hmoved : (plan.built files size).pool? 0 = some moved := by
    rw [built, hbuilt]
    exact Workshop.pool?_setPool moved hstart
  have htaken {p : Effect → Bool} : ∀ action ∈ taken, action.actsOnly p :=
    fun action hm => Action.actsOnly_of_isInternal (hi.building action (hsubset hm))
  obtain ⟨hnothing, houtcome⟩ := (Pool.actsOnly_start size false).play? htaken hplay
  obtain ⟨honly, -⟩ := (Pool.actsOnly_start size false).play? htaken hplay
  obtain ⟨hload, hincoming⟩ := hnothing.load_eq_zero Effect.work
  rw [hmoved] at hb
  have howes : moved.Owes [] :=
    .nil (hreachable.play? hplay) (Option.some.inj hb) hincoming hload
  refine ⟨.nil ?_, by simp, moved, hmoved, howes.bears, honly, houtcome⟩
  rw [built, hbuilt]
  rfl

/-- What the workshop holds after the pool is destroyed was there when the run had waited. -/
theorem destroyed_eq (hi : plan.IsInternal) {fresh : List Errand} {attempts : List Attempt}
    (hb : (plan.waited files size source destination).Busy 0 fresh attempts []) :
    (plan.destroyed files size source destination).errands =
      (plan.waited files size source destination).errands := by
  obtain ⟨pool, hp, hbears, honly, -⟩ := hb.serves
  have hwork : ∀ effect : Effect, effect.isCopy → 0 < effect.work := by
    intro effect hcopy
    cases effect with
    | copy => exact Nat.one_pos
    | _ => cases hcopy
  obtain ⟨hload, hincoming⟩ := Nat.add_eq_zero_iff.mp (hbears.load Effect.work le_rfl)
  have hidle : pool.ActsOnly fun _ => false := honly.of_load hwork hload hincoming
  have hdestroying : ∀ action ∈ .destroy :: plan.destroying, action.actsOnly fun _ => false := by
    intro action hm
    rcases List.mem_cons.mp hm with rfl | hm
    · rfl
    · exact Action.actsOnly_of_isInternal (hi.destroying action hm)
  obtain ⟨taken, moved, -, -, hmoved⟩ := Workshop.takeAll_of_actsOnly hp hidle hdestroying
  rw [destroyed, hmoved]
  rfl

theorem busy_waited (hi : plan.IsInternal) (hs : 1 ≤ size)
    (hc : plan.Completes files size source destination)
    (hr : (plan.walked files size source destination).2 = .ok ids) :
    let book := plan.journal files size source destination
    ids = List.range book.items.length ∧
      (plan.waited files size source destination).Busy 0
        (book.fresh source destination (some 0)) book.attempts [] := by
  obtain ⟨hids, pending, hbusy⟩ := entrusts_of_copyPaced (busy_built hi hs hc.built)
    hi.copying (Prod.ext rfl hr)
  have hwaiting : ∀ action ∈ .call .wait :: plan.waiting,
      action.IsHarmless ∧ action.actsOnly Effect.isCopy := by
    intro action hm
    rcases List.mem_cons.mp hm with rfl | hm
    · exact ⟨⟨by simp, rfl⟩, rfl⟩
    · exact ⟨Action.isHarmless_of_isInternal (hi.waiting action hm),
        Action.actsOnly_of_isInternal (hi.waiting action hm)⟩
  obtain ⟨left, hleft⟩ := hbusy.takeAll hwaiting
  obtain rfl : left = [] := hbusy.of_drained hleft hc.submitted
    (fun action hm => (hwaiting action hm).1) (Workshop.reply?_nextCaller _ _) hc.waited
  exact ⟨hids, hleft⟩

end Plan

/-! ## The exit status -/

theorem Carries.truthful (hr : result.result = .ok ids)
    (hc : Carries files options.source options.destination workers result book) :
    Truthful options workers result book ids := by
  cases hc with
  | inline h =>
    have hnot : ¬ 0 < workers := not_lt.mpr h
    obtain ⟨hids, haccounts⟩ := @settles_of_copy { files } _ _ _ _ rfl (Prod.ext rfl hr)
    apply truthful_of_accounts hr hids
    · rw [outcomeOf, if_neg hnot]
      exact haccounts
    · rw [if_neg hnot]
      rfl
  | pooled h plan hi hcompletes =>
    have hsize : 1 ≤ workers.toNat := by omega
    obtain ⟨hids, hbusy⟩ := Plan.busy_waited hi hsize hcompletes hr
    apply truthful_of_accounts hr hids
    · rw [outcomeOf, if_pos h]
      exact hbusy.accounts.congr (Plan.destroyed_eq hi hbusy)
    · obtain ⟨pool, hpool, -, -, houtcome⟩ := hbusy.serves
      rw [if_pos h, ← houtcome]
      simp [Plan.copied, hpool]

/-- A run concludes from a copy that carries out what the options ask for, and however such a copy
comes about, if it gets as far as the summary, it tells the truth. -/
theorem run_truthful {units : Option Nat} {arguments : List Bytes}
    (hp : Options.parse arguments = .ok options)
    (hw : options.workerCount units files = .ok workers) :
    (∃ result book, Carries files options.source options.destination workers result book ∧
      run units files arguments = conclude options workers result) ∧
    ∀ result book ids, Carries files options.source options.destination workers result book →
      result.result = .ok ids → Truthful options workers result book ids := by
  refine ⟨?_, fun result book ids hc hr => hc.truthful hr⟩
  obtain ⟨book, hc⟩ := exists_carries_copy files options.source options.destination workers
  exact ⟨_, book, hc, run_eq_conclude hp hw⟩

/-- A directory with two files, and a place for a copy where a directory is in the way of one. -/
def inTheWay : FileSystem where
  entries := [(Bytes.ofString "a", .directory
      [(Bytes.ofString "x", .file (Bytes.ofString "1")),
        (Bytes.ofString "y", .file (Bytes.ofString "2"))]),
    (Bytes.ofString "b", .directory [(Bytes.ofString "y", .directory [])])]
  home := []

/-- A worker that copies the first file while the walk goes on, and the second one while the run
waits. -/
def oneWorker : Plan where
  building :=
    List.flatten [[.spawn none, .owner], List.replicate 3 (.worker 0 none), [.owner, .owner]]
  copying :=
    { between := fun pauses _ => List.replicate pauses (.worker 0 none)
      during := fun _ shop =>
        let caller := shop.nextCaller 0
        [.caller caller none, .worker 0 none, .caller caller none, .caller caller (some 0)] }
  waiting := List.flatten [[.caller 2 none], List.replicate 20 (.worker 0 none),
    [.caller 2 none, .caller 2 none]]
  destroying := List.flatten [[.owner, .watch false], List.replicate 5 (.worker 0 none),
    [.owner, .watch false], List.replicate 4 .owner]

theorem run_truthful_inTheWay :
    let result := oneWorker.copied inTheWay 1 (.ofString "a") (.ofString "b")
    let book := oneWorker.journal inTheWay 1 (.ofString "a") (.ofString "b")
    ∃ options, Options.parse (["a", "b", "-w", "1"].map Bytes.ofString) = .ok options ∧
      options.workerCount (some 4) inTheWay = .ok 1 ∧
      Carries inTheWay options.source options.destination 1 result book ∧
      result.result = .ok [0, 1] ∧ book.attempts = [⟨0, true⟩, ⟨1, false⟩] ∧
      (conclude options 1 result).code = 1 ∧
      Truthful options 1 result book [0, 1] := by
  intro result book
  let options : Options :=
    { source := .ofString "a", destination := .ofString "b", workers := some 1 }
  have hparse : Options.parse (["a", "b", "-w", "1"].map Bytes.ofString) = .ok options := by
    decide +kernel
  have hworkers : options.workerCount (some 4) inTheWay = .ok 1 := by decide +kernel
  have hinternal : oneWorker.IsInternal := by
    refine ⟨by decide, ⟨?_, ?_⟩, by decide, by decide⟩
    · intro pauses shop action hm
      rw [List.eq_of_mem_replicate hm]
      rfl
    · intro pauses shop action hm
      simp only [oneWorker, List.mem_cons, List.not_mem_nil, or_false] at hm
      rcases hm with rfl | rfl | rfl | rfl <;> rfl
  have hcompletes : oneWorker.Completes inTheWay 1 (.ofString "a") (.ofString "b") :=
    ⟨by decide +kernel, by decide +kernel, by decide +kernel, by decide +kernel⟩
  have hcarries : Carries inTheWay options.source options.destination 1 result book :=
    .pooled Int.one_pos oneWorker hinternal hcompletes
  have hresult : result.result = .ok [0, 1] := by decide +kernel
  refine ⟨options, hparse, hworkers, hcarries, hresult, by decide +kernel, by decide +kernel, ?_⟩
  exact (run_truthful hparse hworkers).2 result book [0, 1] hcarries hresult

end CommandLine
end TreePool
