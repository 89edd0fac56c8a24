import HornMachine.Bindings.Basic
import HornMachine.Bindings.Unify
import HornMachine.Builtin
import HornMachine.Code.Compile
import HornMachine.Code.Emit
import HornMachine.Code.Instruction
import HornMachine.CommandLine.Options
import HornMachine.CommandLine.Report
import HornMachine.CommandLine.Toml.Document
import HornMachine.CommandLine.Toml.Scan
import HornMachine.CommandLine.Toml.Table
import HornMachine.Config
import HornMachine.Config.Read
import HornMachine.Derivation
import HornMachine.Engine.Basic
import HornMachine.Engine.Build
import HornMachine.Fact
import HornMachine.FactStore
import HornMachine.Fault
import HornMachine.Heap.Basic
import HornMachine.Heap.Extract
import HornMachine.Heap.Load
import HornMachine.Heap.Unify
import HornMachine.Machine.Execute
import HornMachine.Machine.Run
import HornMachine.Machine.State
import HornMachine.Main
import HornMachine.Program
import HornMachine.Proofs.Accounts
import HornMachine.Proofs.Bindings.Application
import HornMachine.Proofs.Bindings.MostGeneral
import HornMachine.Proofs.Bindings.OccursCheck
import HornMachine.Proofs.Bindings.Solution
import HornMachine.Proofs.Bindings.Termination
import HornMachine.Proofs.Bindings.Unification
import HornMachine.Proofs.Budget
import HornMachine.Proofs.Code.Acceptance
import HornMachine.Proofs.Code.Arguments
import HornMachine.Proofs.Code.Bounds
import HornMachine.Proofs.Code.Compile
import HornMachine.Proofs.Code.Emission
import HornMachine.Proofs.Code.Goal
import HornMachine.Proofs.Code.Head
import HornMachine.Proofs.Code.Meaning
import HornMachine.Proofs.Code.Registers
import HornMachine.Proofs.Code.Uses
import HornMachine.Proofs.Code.WellFormed
import HornMachine.Proofs.Computation
import HornMachine.Proofs.Consequences
import HornMachine.Proofs.Cursors
import HornMachine.Proofs.FactLookup
import HornMachine.Proofs.FactStore
import HornMachine.Proofs.GroundCalls
import HornMachine.Proofs.Heap.Acyclic
import HornMachine.Proofs.Heap.Cycles
import HornMachine.Proofs.Heap.Faults
import HornMachine.Proofs.Heap.Formed
import HornMachine.Proofs.Heap.Layout
import HornMachine.Proofs.Heap.Loading
import HornMachine.Proofs.Heap.Matching
import HornMachine.Proofs.Heap.Reading
import HornMachine.Proofs.Heap.Rewind
import HornMachine.Proofs.Heap.Rigid
import HornMachine.Proofs.Heap.Shown
import HornMachine.Proofs.Heap.Solution
import HornMachine.Proofs.Heap.Termination
import HornMachine.Proofs.Heap.Trees
import HornMachine.Proofs.Heap.Unification
import HornMachine.Proofs.Heap.Walks
import HornMachine.Proofs.Intact
import HornMachine.Proofs.Interleaving
import HornMachine.Proofs.LeastModel
import HornMachine.Proofs.Machine.Alike
import HornMachine.Proofs.Machine.Answers
import HornMachine.Proofs.Machine.Calls
import HornMachine.Proofs.Machine.Counters
import HornMachine.Proofs.Machine.Coverage
import HornMachine.Proofs.Machine.Cycles
import HornMachine.Proofs.Machine.Enumeration
import HornMachine.Proofs.Machine.FactAnswers
import HornMachine.Proofs.Machine.Faults
import HornMachine.Proofs.Machine.Goals
import HornMachine.Proofs.Machine.Heads
import HornMachine.Proofs.Machine.Instructions
import HornMachine.Proofs.Machine.Invariant
import HornMachine.Proofs.Machine.Justification
import HornMachine.Proofs.Machine.Moments
import HornMachine.Proofs.Machine.Operations
import HornMachine.Proofs.Machine.Passes
import HornMachine.Proofs.Machine.Point
import HornMachine.Proofs.Machine.Preservation
import HornMachine.Proofs.Machine.Regular
import HornMachine.Proofs.Machine.Restoration
import HornMachine.Proofs.Machine.Safety
import HornMachine.Proofs.Machine.Solutions
import HornMachine.Proofs.Machine.Stack
import HornMachine.Proofs.Machine.Stage
import HornMachine.Proofs.Machine.Starting
import HornMachine.Proofs.Machine.Termination
import HornMachine.Proofs.Machine.Twins
import HornMachine.Proofs.Machine.Writes
import HornMachine.Proofs.MoreFacts
import HornMachine.Proofs.Program
import HornMachine.Proofs.QueryPatterns
import HornMachine.Proofs.Reading.Acceptance
import HornMachine.Proofs.Reading.Grammar
import HornMachine.Proofs.Reading.Joining
import HornMachine.Proofs.Reading.Phrase
import HornMachine.Proofs.Reading.Printing
import HornMachine.Proofs.Resolution.Correctness
import HornMachine.Proofs.Resolution.Instances
import HornMachine.Proofs.Resolution.Interpreter
import HornMachine.Proofs.Resolution.Search
import HornMachine.Proofs.Resolution.Unifier
import HornMachine.Proofs.Rollback
import HornMachine.Proofs.RoundTrip
import HornMachine.Proofs.Saturation
import HornMachine.Proofs.SolutionTerms
import HornMachine.Proofs.StepLimits
import HornMachine.Proofs.Term.Domain
import HornMachine.Proofs.Term.Numbering
import HornMachine.Proofs.Term.Pairs
import HornMachine.Proofs.Term.Substitution
import HornMachine.Proofs.Term.Tree
import HornMachine.Proofs.Term.Variant
import HornMachine.Proofs.Text.Cutting
import HornMachine.Proofs.Unifiers
import HornMachine.Proposal
import HornMachine.Reading.Clause
import HornMachine.Reading.Session
import HornMachine.Reading.Source
import HornMachine.Reading.Term
import HornMachine.Rule
import HornMachine.Saturation
import HornMachine.Statistics
import HornMachine.Symbol
import HornMachine.Term.Basic
import HornMachine.Term.Order
import HornMachine.Text.Blank
import HornMachine.Text.Integer
import HornMachine.Text.Nesting
import HornMachine.Text.Pad
