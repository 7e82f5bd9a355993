import TreePool.Errand.Report
import TreePool.Proofs.Run
import Mathlib.Data.List.Basic

/-! # Reports that are read while others record

A report reads the verdict, the failures and the entries of an errand one after the other, and other
threads may write to the errand before, between and after. So a report need not show an errand as it
has ever been: `report_torn`. What it shows is the verdict of one moment, the failures of a later
one and the entries of one later still, and when no more than one of the three changes meanwhile,
this is the errand as it was at one moment: `pieced_of_play?`.
-/

namespace TreePool

/-! ## What writes leave -/

namespace Errand

variable {before between after : Errand}

/-- An errand may have become another by writes: what is fixed is the same, and no list has lost
anything. -/
structure Becomes (before after : Errand) : Prop where
  fixed : after =
    { before with success := after.success, failed := after.failed, all := after.all }
  failed : before.failed <+: after.failed
  all : before.all <+: after.all

namespace Becomes

theorem refl (errand : Errand) : errand.Becomes errand :=
  ⟨rfl, List.prefix_rfl, List.prefix_rfl⟩

theorem trans (h : before.Becomes between) (h' : between.Becomes after) : before.Becomes after where
  fixed := by rw [h'.fixed, h.fixed]
  failed := h.failed.trans h'.failed
  all := h.all.trans h'.all

theorem write (errand : Errand) (item : Write) : errand.Becomes (errand.write item) := by
  cases item with
  | failed path => exact ⟨rfl, List.prefix_append _ _, List.prefix_rfl⟩
  | entry path => exact ⟨rfl, List.prefix_rfl, List.prefix_append _ _⟩
  | verdict | outcome => exact ⟨rfl, List.prefix_rfl, List.prefix_rfl⟩

theorem report_eq (h : before.Becomes after) (ha : after.all = before.all) :
    { after.report with success := before.success, failed := before.failed } = before.report := by
  rw [h.fixed, ha]
  rfl

end Becomes

end Errand

/-! ## Surveys -/

inductive Reading where
  | called
  | verdict (success : Bool)
  | failures (success : Bool) (failed : List Path)
  | returned (report : Report)
deriving DecidableEq

namespace Reading

/-- What is read next, all at one moment. -/
def next? (errand : Errand) : Reading → Option Reading
  | called => some (verdict errand.success)
  | verdict success => some (failures success errand.failed)
  | failures success failed => some (returned { errand.report with success, failed })
  | returned _ => none

def isReturned : Reading → Bool
  | returned _ => true
  | _ => false

end Reading

/-- An errand that is read for a report while recorders write to it. -/
structure Survey where
  errand : Errand
  /-- What each recorder has yet to write, in order. -/
  recorders : List (List Write)
  reading : Reading := .called

namespace Survey

inductive Turn where
  | read
  | write (recorder : Nat)
deriving DecidableEq

def step? (survey : Survey) : Turn → Option Survey
  | .read => do
    let reading ← survey.reading.next? survey.errand
    some { survey with reading }
  | .write id =>
    match survey.recorders[id]? with
    | some (item :: rest) =>
      some { survey with
        errand := survey.errand.write item
        recorders := survey.recorders.set id rest }
    | _ => none

abbrev play? (survey : Survey) (turns : List Turn) : Option Survey := after? step? survey turns

/-- The errand at each moment of the call, from its start until all is read. -/
def moments (survey : Survey) : List Turn → List Errand
  | [] => []
  | turn :: turns =>
    if survey.reading.isReturned then []
    else
      survey.errand :: match survey.step? turn with
        | some next => next.moments turns
        | none => []

inductive Transition (survey : Survey) : Turn → Survey → Prop
  | read {reading : Reading} (h : survey.reading.next? survey.errand = some reading) :
      Transition survey .read { survey with reading }
  | write {id : Nat} {item : Write} {rest : List Write}
      (h : survey.recorders[id]? = some (item :: rest)) :
      Transition survey (.write id)
        { survey with
          errand := survey.errand.write item
          recorders := survey.recorders.set id rest }

variable {survey next final : Survey} {turn : Turn} {turns : List Turn} {report : Report}

theorem transition_of_step? (h : survey.step? turn = some next) :
    Transition survey turn next := by
  cases turn with
  | read =>
    obtain ⟨reading, hr, h⟩ := Option.bind_eq_some_iff.mp h
    cases h
    exact .read hr
  | write id =>
    simp only [step?] at h
    split at h
    · next hget =>
      cases h
      exact .write hget
    · cases h

theorem Transition.becomes (h : Transition survey turn next) :
    survey.errand.Becomes next.errand := by
  cases h with
  | read => exact .refl _
  | write => exact .write _ _

theorem becomes_of_play? (h : survey.play? turns = some final) :
    survey.errand.Becomes final.errand :=
  after?_induction (fun hb hs => hb.trans (transition_of_step? hs).becomes) (.refl _) h

/-! ## The call -/

theorem moments_of_returned (hr : survey.reading = .returned report) (turns : List Turn) :
    survey.moments turns = [] := by
  cases turns with
  | nil => rfl
  | cons turn turns => exact if_pos (by rw [hr]; rfl)

theorem reading_of_returned (hr : survey.reading = .returned report)
    (h : survey.play? turns = some final) : final.reading = .returned report := by
  refine after?_induction (fun {before _ _} hr hs => ?_) hr h
  cases transition_of_step? hs with
  | read hread =>
    rw [hr] at hread
    cases hread
  | write => exact hr

/-- A report that comes to be returned gets on. Until it does so others may write, and what it then
reads is read at one moment of the call. -/
theorem exists_read (hr : survey.reading.isReturned = false)
    (hf : final.reading = .returned report) (h : survey.play? turns = some final) :
    ∃ (waited : List Errand) (next : Survey) (turns' : List Turn),
      survey.moments turns = waited ++ next.errand :: next.moments turns' ∧
      survey.reading.next? next.errand = some next.reading ∧
      survey.errand.Becomes next.errand ∧ next.play? turns' = some final := by
  induction turns generalizing survey with
  | nil =>
    cases h
    rw [hf] at hr
    cases hr
  | cons turn turns ih =>
    obtain ⟨next, hs, hrest⟩ := after?_cons_eq_some_iff.mp h
    have hmoments : survey.moments (turn :: turns) = survey.errand :: next.moments turns := by
      simp only [moments, hr, hs, Bool.false_eq_true, if_false]
    have hbecomes := (transition_of_step? hs).becomes
    cases transition_of_step? hs with
    | @read reading hread =>
      exact ⟨[], { survey with reading }, turns, hmoments, hread, hbecomes, hrest⟩
    | write =>
      obtain ⟨waited, later, turns', hlater, hread, hbecomes', hplay⟩ := ih (by exact hr) hrest
      exact ⟨survey.errand :: waited, later, turns', by rw [hmoments, hlater, List.cons_append],
        hread, hbecomes.trans hbecomes', hplay⟩

theorem exists_reads (hc : survey.reading = .called) (hf : final.reading = .returned report)
    (h : survey.play? turns = some final) :
    ∃ (waited : List Errand) (early : Errand) (between : List Errand) (middle : Errand)
      (meanwhile : List Errand) (late : Errand),
      survey.moments turns = waited ++ early :: (between ++ middle :: (meanwhile ++ [late])) ∧
      report = { late.report with success := early.success, failed := middle.failed } ∧
      survey.errand.Becomes early ∧ early.Becomes middle ∧ middle.Becomes late ∧
      late.Becomes final.errand := by
  obtain ⟨waited, first, turns, hwaited, hread, hfirst, h⟩ := exists_read (by rw [hc]; rfl) hf h
  rw [hc] at hread
  have hverdict : first.reading = .verdict first.errand.success := (Option.some.inj hread).symm
  obtain ⟨between, second, turns, hbetween, hread, hsecond, h⟩ :=
    exists_read (by rw [hverdict]; rfl) hf h
  rw [hverdict] at hread
  have hfailures : second.reading = .failures first.errand.success second.errand.failed :=
    (Option.some.inj hread).symm
  obtain ⟨meanwhile, third, turns, hmeanwhile, hread, hthird, h⟩ :=
    exists_read (by rw [hfailures]; rfl) hf h
  rw [hfailures] at hread
  have hreturned := (Option.some.inj hread).symm
  have hreport := hf.symm.trans (reading_of_returned hreturned h)
  refine ⟨waited, first.errand, between, second.errand, meanwhile, third.errand, ?_,
    Reading.returned.inj hreport, hfirst, hsecond, hthird, becomes_of_play? h⟩
  rw [hwaited, hbetween, hmeanwhile, moments_of_returned hreturned]

/-! ## What a report is pieced together from -/

def AtMostOneChanges (moments : List Errand) : Prop :=
  (∀ a ∈ moments, ∀ b ∈ moments, a.failed = b.failed ∧ a.all = b.all) ∨
  (∀ a ∈ moments, ∀ b ∈ moments, a.success = b.success ∧ a.all = b.all) ∨
  (∀ a ∈ moments, ∀ b ∈ moments, a.success = b.success ∧ a.failed = b.failed)

/-- What a report that was read during a survey has to do with the errand. -/
structure Pieced (survey : Survey) (turns : List Turn) (final : Survey) (report : Report) :
    Prop where
  /-- Each field is that of a moment of the call, and these moments are in order. -/
  pieces : ∃ waited early between middle meanwhile late,
    survey.moments turns = waited ++ early :: (between ++ middle :: (meanwhile ++ [late])) ∧
      report = { late.report with success := early.success, failed := middle.failed }
  /-- All failures are reported that were recorded before the call, and only recorded ones. -/
  failed : survey.errand.failed <+: report.failed ∧ report.failed <+: final.errand.failed
  all : survey.errand.all <+: report.all ∧ report.all <+: final.errand.all
  whole : AtMostOneChanges (survey.moments turns) →
    ∃ moment ∈ survey.moments turns, report = moment.report

/-- Whatever others write meanwhile, a report is pieced together from the errand as it was at three
moments of the call, and it is whole when no more than one of its pieces changes. -/
theorem pieced_of_play? (hc : survey.reading = .called) (hp : survey.play? turns = some final)
    (hf : final.reading = .returned report) : Pieced survey turns final report := by
  obtain ⟨waited, early, between, middle, meanwhile, late, hmoments, hreport, hstart, hbetween,
    hmeanwhile, hend⟩ := exists_reads hc hf hp
  have hearly : early ∈ survey.moments turns := by simp [hmoments]
  have hmiddle : middle ∈ survey.moments turns := by simp [hmoments]
  have hlate : late ∈ survey.moments turns := by simp [hmoments]
  have hbefore := hstart.trans hbetween
  refine ⟨⟨_, _, _, _, _, _, hmoments, hreport⟩, ?_, ?_, ?_⟩
  · rw [hreport]
    exact ⟨hbefore.failed, (hmeanwhile.trans hend).failed⟩
  · rw [hreport]
    exact ⟨(hbefore.trans hmeanwhile).all, hend.all⟩
  · intro hchanges
    have hwhole {moment : Errand} (hb : moment.Becomes late) (hs : early.success = moment.success)
        (hf : middle.failed = moment.failed) (ha : late.all = moment.all) :
        report = moment.report := by
      rw [hreport, hs, hf]
      exact hb.report_eq ha
    -- The moment that is reported is the one at which the field that changes was read.
    rcases hchanges with hsame | hsame | hsame
    · obtain ⟨hfailed, -⟩ := hsame _ hmiddle _ hearly
      obtain ⟨-, hall⟩ := hsame _ hlate _ hearly
      exact ⟨early, hearly, hwhole (hbetween.trans hmeanwhile) rfl hfailed hall⟩
    · obtain ⟨hsuccess, -⟩ := hsame _ hearly _ hmiddle
      obtain ⟨-, hall⟩ := hsame _ hlate _ hmiddle
      exact ⟨middle, hmiddle, hwhole hmeanwhile hsuccess rfl hall⟩
    · obtain ⟨hsuccess, -⟩ := hsame _ hearly _ hlate
      obtain ⟨-, hfailed⟩ := hsame _ hmiddle _ hlate
      exact ⟨late, hlate, hwhole (.refl late) hsuccess hfailed rfl⟩

/-- An errand whose file could not be copied at first and then could, read by somebody who is
overtaken by both attempts. -/
def twoAttempts : Survey :=
  let file : Path := .ofString "a/x"
  { errand :=
      { directory := .ofString "a", source := file, destination := .ofString "b/x", level := 1 }
    recorders := [[.entry file, .failure file, .entry file, .success].flatMap Record.writes] }

def overtaken : List Turn := [.read, .read] ++ List.replicate 6 (.write 0) ++ [.read]

theorem pieced_overtaken : ∃ final report, twoAttempts.reading = .called ∧
    twoAttempts.play? overtaken = some final ∧ final.reading = .returned report ∧
    final.recorders = [[]] ∧ Pieced twoAttempts overtaken final report := by
  exact ⟨_, _, rfl, rfl, rfl, by decide, pieced_of_play? rfl rfl rfl⟩

/-- A report may tell of two attempts and of no failure, though the errand never did. -/
theorem report_torn : ∃ final report, twoAttempts.play? overtaken = some final ∧
    final.reading = .returned report ∧ (report.success, report.failed) = (false, []) ∧
    report.all.length = 2 ∧
    ∀ moment ∈ twoAttempts.moments overtaken, report ≠ moment.report := by
  exact ⟨_, _, rfl, rfl, rfl, rfl, by decide⟩

end Survey
end TreePool
