import TreePool.Main
import TreePool.Gate.Crowd
import TreePool.Errand.Ledger
import TreePool.Proofs.Pool.Transition
import TreePool.Proofs.Pool.Counters
import TreePool.Proofs.Pool.Lifecycle
import TreePool.Proofs.Pool.Tickets
import TreePool.Proofs.Pool.Drain
import TreePool.Proofs.Pool.History
import TreePool.Proofs.Pool.Order
import TreePool.Proofs.Pool.Budget
import TreePool.Proofs.Pool.WakeUp
import TreePool.Proofs.Pool.Destroy
import TreePool.Proofs.FileSystem.Chart
import TreePool.Proofs.FileSystem.Trail
import TreePool.Proofs.Path.Steps
import TreePool.Proofs.FileSystem.Lookup
import TreePool.Proofs.FileSystem.Change
import TreePool.Proofs.FileSystem.Order
import TreePool.Proofs.Tree.Walk
import TreePool.Proofs.Workshop.Copying
import TreePool.Proofs.Tree.Faithful
import TreePool.Proofs.FileSystem.Descent
import TreePool.Proofs.FileSystem.Destination
import TreePool.Proofs.FileSystem.Relaid
import TreePool.Proofs.Tree.Plan
import TreePool.Proofs.Tree.Growth
import TreePool.Proofs.Tree.Confined
import TreePool.Proofs.Tree.Stage
import TreePool.Proofs.Tree.Course
import TreePool.Proofs.Tree.Outcome
import TreePool.Proofs.Tree.Again
import TreePool.Proofs.Tree.Mirror
import TreePool.Proofs.Pool.Load
import TreePool.Proofs.Workshop.Crew
import TreePool.Proofs.Workshop.Shut
import TreePool.Proofs.Tree.Parallel
import TreePool.Proofs.Tree.Stopped
import TreePool.Proofs.Tree.Aborted
import TreePool.Proofs.Pool.Energy
import TreePool.Proofs.Pool.Evacuation
import TreePool.Proofs.Pool.Balance
import TreePool.Proofs.Pool.Construction
import TreePool.Proofs.Pool.Commission
import TreePool.Proofs.Pool.Vigil
import TreePool.Proofs.Pool.Shutdown
import TreePool.Proofs.Pool.ActsOnly
import TreePool.Proofs.Pool.Rest
import TreePool.Proofs.Pool.Calm
import TreePool.Proofs.Workshop.Incidents
import TreePool.Proofs.Workshop.Chronicle
import TreePool.Proofs.Workshop.Calm
import TreePool.Proofs.Workshop.Accounts
import TreePool.Proofs.Workshop.Settle
import TreePool.Proofs.Workshop.Ready
import TreePool.Proofs.Tree.Journal
import TreePool.Proofs.Errand.Report
import TreePool.Proofs.CommandLine.Plan
import TreePool.Proofs.CommandLine.ExitStatus
import TreePool.Proofs.CommandLine.Flag
import TreePool.Proofs.CommandLine.Verbose
import TreePool.Proofs.Gate.Crowd
import TreePool.Proofs.Json.Grammar
import TreePool.Proofs.Json.Strings
import TreePool.Proofs.Json.Numerals
import TreePool.Proofs.Json.Skip
import TreePool.Proofs.Json.Structure
import TreePool.Proofs.Json.Fields
import TreePool.Proofs.Settings.Reader
import TreePool.Proofs.Errand.RoundTrip
import TreePool.Proofs.Tree.ThroughLink
import TreePool.Proofs.Workshop.OneCopy
import TreePool.Proofs.Pool.Log
import TreePool.Proofs.Pool.Reconciled
import TreePool.Proofs.Errand.Ledger
import TreePool.Proofs.Errand.Survey
import TreePool.Proofs.Gate.Consumer
import TreePool.Proofs.CommandLine.WorkerCount
