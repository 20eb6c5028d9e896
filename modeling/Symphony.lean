import Symphony.Ty
import Symphony.Operator
import Symphony.Sector
import Symphony.Text.Blank
import Symphony.Text.Integer
import Symphony.Text.Printable
import Symphony.Text.Quoted
import Symphony.Number.Power
import Symphony.Number.Binary
import Symphony.Number.Shortest
import Symphony.Number.Places
import Symphony.Number.Complex
import Symphony.Fault
import Symphony.Value
import Symphony.Value.Template
import Symphony.Value.Arithmetic
import Symphony.Attempt
import Symphony.Token
import Symphony.Token.Scan
import Symphony.Event
import Symphony.Grammar
import Symphony.Trace
import Symphony.PerTy
import Symphony.Quad
import Symphony.Compiler.Rejection
import Symphony.Compiler.State
import Symphony.Special
import Symphony.Compiler.Emit
import Symphony.Compiler.Operate
import Symphony.Compiler.Jump
import Symphony.Compiler.Declare
import Symphony.Compiler.Call
import Symphony.Compiler.Perform
import Symphony.Machine.Memory
import Symphony.Machine.State
import Symphony.Machine.Operation
import Symphony.Machine.Routine
import Symphony.Machine.Run
import Symphony.Session
import Symphony.Console
import Symphony.Report
import Symphony.Main
import Symphony.Workload.Source
import Symphony.Workload.Emission
import Symphony.Workload
import Symphony.Proofs.Parsing
import Symphony.Proofs.Beginnings
import Symphony.Proofs.Provenance
import Symphony.Proofs.Actions
import Symphony.Proofs.Compilation
import Symphony.Proofs.Layout
import Symphony.Proofs.Regions
import Symphony.Proofs.Code
import Symphony.Proofs.Places
import Symphony.Proofs.ControlFlow
import Symphony.Proofs.Areas
import Symphony.Proofs.Growth
import Symphony.Proofs.Nesting
import Symphony.Proofs.Cells
import Symphony.Proofs.Effects
import Symphony.Proofs.Variables
import Symphony.Proofs.Calls
import Symphony.Proofs.Parts
import Symphony.Proofs.Termination
import Symphony.Proofs.Frames
import Symphony.Proofs.Writes
import Symphony.Proofs.Isolation
import Symphony.Proofs.Monotone
import Symphony.Proofs.Order
import Symphony.Proofs.Typing
import Symphony.Proofs.Blocks
import Symphony.Proofs.Values
import Symphony.Proofs.Literals
import Symphony.Proofs.Productions
import Symphony.Proofs.Recognition
import Symphony.Proofs.Lookahead
import Symphony.Proofs.Acceptance
import Symphony.Proofs.Kinds
import Symphony.Proofs.Readiness
import Symphony.Proofs.Rejections
import Symphony.Proofs.Spelling
import Symphony.Proofs.Coverage
import Symphony.Proofs.Breaks
import Symphony.Proofs.SelfCalls
import Symphony.Proofs.Handover
import Symphony.Proofs.Preservation
import Symphony.Proofs.Temporals
import Symphony.Proofs.Lines
import Symphony.Proofs.Leftovers
import Symphony.Proofs.Sessions
import Symphony.Proofs.Stacks
import Symphony.Proofs.VoidCalls
import Symphony.Proofs.Binding
import Symphony.Proofs.Delivery
import Symphony.Proofs.Chains
import Symphony.Proofs.Targets
import Symphony.Proofs.Conditionals
import Symphony.Proofs.Arguments
import Symphony.Proofs.Stores
import Symphony.Proofs.Faults
import Symphony.Proofs.Assignments
import Symphony.Proofs.Pointers
import Symphony.Proofs.InputLines
import Symphony.Proofs.Pools
import Symphony.Proofs.Entries
import Symphony.Proofs.Rounding
import Symphony.Proofs.Constants
import Symphony.Proofs.Consumption
import Symphony.Proofs.Placement
import Symphony.Proofs.Scoping
import Symphony.Proofs.BareCodes
import Symphony.Proofs.LineFeeds
import Symphony.Proofs.AddressMap
import Symphony.Proofs.PointerChains
import Symphony.Proofs.LineFormats
