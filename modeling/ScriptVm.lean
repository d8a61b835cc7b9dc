import ScriptVm.Main
import ScriptVm.Workbench
import ScriptVm.Proofs.Growth
import ScriptVm.Proofs.Layer
import ScriptVm.Proofs.Lockstep
import ScriptVm.Proofs.Lockstep.Stacks
import ScriptVm.Proofs.Exec
import ScriptVm.Proofs.Lockstep.Calls
import ScriptVm.Proofs.Advance
import ScriptVm.Proofs.Lockstep.Operators
import ScriptVm.Proofs.Lockstep.Steps
import ScriptVm.Proofs.Safety
import ScriptVm.Proofs.CallContract
import ScriptVm.Proofs.Locality
import ScriptVm.Proofs.OperatorContract
import ScriptVm.Proofs.UnitFile
import ScriptVm.Proofs.Moves
import ScriptVm.Proofs.Departure
import ScriptVm.Proofs.Resumption
import ScriptVm.Proofs.Lifecycle
import ScriptVm.Proofs.Effects
import ScriptVm.Proofs.Moments
import ScriptVm.Proofs.Rounds
import ScriptVm.Proofs.Scheduling
import ScriptVm.Proofs.Aftermath
import ScriptVm.Proofs.Compilation
import ScriptVm.Proofs.Chains
import ScriptVm.Proofs.OrderedMap
import ScriptVm.Proofs.Requests
import ScriptVm.Proofs.Writes
import ScriptVm.Proofs.Entries
import ScriptVm.Proofs.Lookup
import ScriptVm.Proofs.Scopes
import ScriptVm.Proofs.Atomicity
import ScriptVm.Proofs.Memories
import ScriptVm.Proofs.Declarations
import ScriptVm.Proofs.Assembly
import ScriptVm.Proofs.Places
import ScriptVm.Proofs.Closures
import ScriptVm.Proofs.Passing
import ScriptVm.Proofs.Tracks
import ScriptVm.Proofs.AssembledRuns
import ScriptVm.Proofs.Live
import ScriptVm.Proofs.Decoding
import ScriptVm.Proofs.FileLayout
import ScriptVm.Proofs.Spelling
import ScriptVm.Proofs.Twins
import ScriptVm.Proofs.Twins.Heap
import ScriptVm.Proofs.Mirror
import ScriptVm.Proofs.Mirror.Calls
import ScriptVm.Proofs.Mirror.Operators
import ScriptVm.Proofs.Mirror.Instructions
import ScriptVm.Proofs.Mirror.Steps
import ScriptVm.Proofs.Mirror.Runs
import ScriptVm.Proofs.Mirror.Rounds
import ScriptVm.Proofs.Errands
import ScriptVm.Proofs.Forms
import ScriptVm.Proofs.Respelling
import ScriptVm.Proofs.Arising
import ScriptVm.Proofs.Tandem
import ScriptVm.Proofs.OneShot
import ScriptVm.Proofs.Diary
import ScriptVm.Proofs.FileLength
import ScriptVm.Proofs.Phases
import ScriptVm.Proofs.Pending
import ScriptVm.Proofs.PhaseDiscipline
import ScriptVm.Proofs.AsyncProtocol
import ScriptVm.Proofs.Comparisons
import ScriptVm.Proofs.OperatorFaults
import ScriptVm.Proofs.Backtraces
import ScriptVm.Proofs.Integers
import ScriptVm.Proofs.JsonText
import ScriptVm.Proofs.UnitText
import ScriptVm.Proofs.FrameBounds
import ScriptVm.Proofs.StackLayout
import ScriptVm.Proofs.Capacities
import ScriptVm.Proofs.Interning
