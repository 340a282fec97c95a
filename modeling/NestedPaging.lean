import NestedPaging.Bench.Run
import NestedPaging.Proofs.Tree.Overwriting
import NestedPaging.Proofs.Tree.Requests
import NestedPaging.Proofs.Tree.Decoding
import NestedPaging.Proofs.Tree.Ranges
import NestedPaging.Proofs.Tree.Walking
import NestedPaging.Proofs.Tree.Updating
import NestedPaging.Proofs.Tree.Operations
import NestedPaging.Proofs.Tree.Subtrees
import NestedPaging.Proofs.Tree.Freeing
import NestedPaging.Proofs.Tree.Histories
import NestedPaging.Proofs.Tree.Calm
import NestedPaging.Proofs.Tree.Growing
import NestedPaging.Proofs.Tree.Provision
import NestedPaging.Proofs.Tree.Refinement
import NestedPaging.Proofs.Tree.Neutrality
import NestedPaging.Proofs.Tree.Installing
import NestedPaging.Proofs.Tree.LargestLeaves
import NestedPaging.Proofs.Tree.Races
import NestedPaging.Proofs.Tree.Accounting
import NestedPaging.Proofs.Tree.Schedules
import NestedPaging.Proofs.Tree.Serializability
import NestedPaging.Proofs.Machine.Traces
import NestedPaging.Proofs.Tree.Frame
import NestedPaging.Proofs.Space.Switching
import NestedPaging.Proofs.Space.Syncing
import NestedPaging.Proofs.Space.Runs
import NestedPaging.Proofs.Space.Elision
import NestedPaging.Proofs.Space.Staleness
import NestedPaging.Proofs.Space.Creation
import NestedPaging.Proofs.Space.Destruction
import NestedPaging.Proofs.Tree.TakenTables
import NestedPaging.Proofs.Space.TreesAtRest
import NestedPaging.Proofs.Space.Reclamation
import NestedPaging.Proofs.Unit.Registers
import NestedPaging.Proofs.Machine.Cleaning
import NestedPaging.Proofs.Unit.Completion
import NestedPaging.Proofs.Tree.Accesses
import NestedPaging.Proofs.Tree.AccessInvariants
import NestedPaging.Proofs.Tree.Sights
import NestedPaging.Proofs.Tree.Snooping
import NestedPaging.Proofs.Objects.PageAccesses
import NestedPaging.Proofs.Space.Lifecycle
import NestedPaging.Proofs.Space.PageBalance
import NestedPaging.Proofs.Objects.Basic
import NestedPaging.Proofs.Objects.JointRuns
import NestedPaging.Proofs.Objects.MidOperation
import NestedPaging.Proofs.Objects.TreesAndSpaces
import NestedPaging.Proofs.Objects.RemapTables
import NestedPaging.Proofs.Objects.Units
import NestedPaging.Proofs.Objects.Creation
import NestedPaging.Proofs.Objects.Isolation
import NestedPaging.Proofs.Unit.Driving
import NestedPaging.Proofs.Unit.Emulation
import NestedPaging.Proofs.Unit.Submitting
import NestedPaging.Proofs.Unit.Commanding
import NestedPaging.Proofs.Unit.BringUp
import NestedPaging.Proofs.Unit.Addition
import NestedPaging.Proofs.Unit.Disciplines
import NestedPaging.Proofs.Platform.Units
import NestedPaging.Proofs.Platform.Assignment
import NestedPaging.Proofs.Platform.Runs
import NestedPaging.Proofs.Platform.Links
import NestedPaging.Proofs.Platform.CachedMappings
import NestedPaging.Proofs.Platform.Assembly
import NestedPaging.Proofs.Tree.Repeating
import NestedPaging.Proofs.Tree.Unmapping
import NestedPaging.Proofs.Tree.UnmappingRanges
import NestedPaging.Proofs.Tables.Halves
import NestedPaging.Proofs.Tables.InterruptRewrites
import NestedPaging.Proofs.Tables.ContextMoments
import NestedPaging.Proofs.Tables.ContextMap
import NestedPaging.Proofs.Tables.InterruptMap
import NestedPaging.Proofs.Unit.FaultRecording
import NestedPaging.Proofs.Unit.FaultDraining
import NestedPaging.Proofs.Platform.FaultReporting
import NestedPaging.Proofs.Unit.GlobalCommands
import NestedPaging.Proofs.Unit.CommandRuns
import NestedPaging.Proofs.Unit.Queue
import NestedPaging.Proofs.Tree.Truncation
import NestedPaging.Proofs.Platform.PagesHeld
import NestedPaging.Proofs.Unit.BringUpOrder
import NestedPaging.Proofs.Platform.BringUpOrder
import NestedPaging.Proofs.Machine.CacheLines
import NestedPaging.Proofs.Tree.Words
