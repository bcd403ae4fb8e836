import LeasedWork.Text.Decimal
import LeasedWork.Text.Blank
import LeasedWork.Text.Percent
import LeasedWork.Number.Shortest
import LeasedWork.Json.Printer
import LeasedWork.Json.Fields
import LeasedWork.Time.Timestamp
import LeasedWork.Time.Clock
import LeasedWork.Record.Lease
import LeasedWork.Record.Wire
import LeasedWork.Failure
import LeasedWork.Partition.BuiltIn
import LeasedWork.Store.Table
import LeasedWork.Store.Objects
import LeasedWork.Text.Lower
import LeasedWork.Settings.Node
import LeasedWork.Settings.Leader
import LeasedWork.Settings.Worker
import LeasedWork.Settings.LogFormat
import LeasedWork.Fleet.Election
import LeasedWork.Fleet.Planning
import LeasedWork.Rehearsal.Script
import LeasedWork.Rehearsal.Step
import LeasedWork.Rehearsal.Background
import LeasedWork.Rehearsal.Bench
import LeasedWork.Tasks.Signal
import LeasedWork.Tasks.Process
import LeasedWork.Tasks.Roster
import LeasedWork.Rehearsal.Crew
import LeasedWork.Proofs.Text.Numerals
import LeasedWork.Proofs.Text.Bytes
import LeasedWork.Proofs.Time.Calendar
import LeasedWork.Proofs.Time.Timestamp
import LeasedWork.Proofs.Time.Deadlines
import LeasedWork.Proofs.Json.Tokens
import LeasedWork.Proofs.Json.Trees
import LeasedWork.Proofs.Json.Numbers
import LeasedWork.Proofs.Json.Quotations
import LeasedWork.Proofs.Json.Spellings
import LeasedWork.Proofs.Json.Members
import LeasedWork.Proofs.Json.Plain
import LeasedWork.Proofs.Record.RoundTrip
import LeasedWork.Proofs.Record.Drift
import LeasedWork.Proofs.Record.Candidates
import LeasedWork.Proofs.Partition.Progress
import LeasedWork.Proofs.Partition.Keys
import LeasedWork.Proofs.Partition.Notes
import LeasedWork.Proofs.Partition.Grammars
import LeasedWork.Proofs.Partition.Schemas
import LeasedWork.Proofs.Partition.Acceptance
import LeasedWork.Proofs.Store.Paths
import LeasedWork.Proofs.Store.Sources
import LeasedWork.Proofs.Store.Tables
import LeasedWork.Proofs.Store.Requests
import LeasedWork.Proofs.Store.Buckets
import LeasedWork.Proofs.Store.Objects
import LeasedWork.Proofs.Store.Equivalence
import LeasedWork.Proofs.Store.Versions
import LeasedWork.Proofs.Store.Draining
import LeasedWork.Proofs.Store.Traffic
import LeasedWork.Proofs.Store.Interleaving
import LeasedWork.Proofs.Store.Listings
import LeasedWork.Proofs.Fleet.Runs
import LeasedWork.Proofs.Fleet.Coherence
import LeasedWork.Proofs.Fleet.Exclusion
import LeasedWork.Proofs.Fleet.Statuses
import LeasedWork.Proofs.Fleet.Accords
import LeasedWork.Proofs.Fleet.Passes
import LeasedWork.Proofs.Fleet.Preparation
import LeasedWork.Proofs.Fleet.Outcomes
import LeasedWork.Proofs.Fleet.Campaigns
import LeasedWork.Proofs.Fleet.Leadership
import LeasedWork.Proofs.Fleet.Initialization
import LeasedWork.Proofs.Fleet.Reigns
import LeasedWork.Proofs.Fleet.SharedState
import LeasedWork.Proofs.Fleet.Crowds
import LeasedWork.Proofs.Fleet.Pins
import LeasedWork.Proofs.Fleet.Exports
import LeasedWork.Proofs.Fleet.Snapshots
import LeasedWork.Proofs.Fleet.Sessions
import LeasedWork.Proofs.Fleet.Sites
import LeasedWork.Proofs.Fleet.Namespaces
import LeasedWork.Proofs.Fleet.Openings
import LeasedWork.Proofs.Fleet.Lifetimes
import LeasedWork.Proofs.Fleet.Shapes
import LeasedWork.Proofs.Fleet.Handovers
import LeasedWork.Proofs.Fleet.Positions
import LeasedWork.Proofs.Fleet.Holders
import LeasedWork.Proofs.Fleet.Surroundings
import LeasedWork.Proofs.Fleet.Completions
import LeasedWork.Proofs.Fleet.Workshops
import LeasedWork.Proofs.Fleet.Counters
import LeasedWork.Proofs.Fleet.Attempts
import LeasedWork.Proofs.Fleet.Deliveries
import LeasedWork.Proofs.Fleet.Audits
import LeasedWork.Proofs.Fleet.Apartness
import LeasedWork.Proofs.Fleet.Transitions
import LeasedWork.Proofs.Fleet.Erasure
import LeasedWork.Proofs.Fleet.Misfits
import LeasedWork.Proofs.Fleet.Leftovers
import LeasedWork.Proofs.Fleet.Closings
import LeasedWork.Proofs.Tasks.Processes
import LeasedWork.Proofs.Tasks.Shutdowns
import LeasedWork.Proofs.Tasks.Careers
