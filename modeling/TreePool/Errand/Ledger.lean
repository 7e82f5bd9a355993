import TreePool.Errand.Basic

/-! # Ledgers

A ledger holds errands and the outcomes that they are bound to. An outcome starts out successful,
and nothing that is recorded makes a failed one successful again.
-/

namespace TreePool

structure Ledger where
  errands : List Errand
  /-- Whether each outcome is still successful. -/
  outcomes : List Bool
deriving DecidableEq, Repr

namespace Ledger

/-- A ledger without errands, in which all outcomes are successful. -/
def start (outcomes : Nat) : Ledger := ⟨[], List.replicate outcomes true⟩

def fail (ledger : Ledger) (outcome : OutcomeId) : Ledger :=
  { ledger with outcomes := ledger.outcomes.set outcome false }

def add (ledger : Ledger) (errand : Errand) : Ledger :=
  { ledger with errands := ledger.errands ++ [errand] }

def record (ledger : Ledger) (id : ErrandId) (record : Record) : Ledger :=
  match ledger.errands[id]? with
  | none => ledger
  | some errand =>
    let recorded := { ledger with errands := ledger.errands.set id (errand.record record) }
    match errand.marks record with
    | some outcome => recorded.fail outcome
    | none => recorded

def recordAll (ledger : Ledger) (id : ErrandId) (records : List Record) : Ledger :=
  records.foldl (fun ledger item => ledger.record id item) ledger

end Ledger

end TreePool
