import ThreeAddress.Builder.Basic
import ThreeAddress.Builder.Control
import ThreeAddress.Builder.Label
import ThreeAddress.Builder.Strings
import ThreeAddress.CommandLine.Report
import ThreeAddress.CommandLine.Request
import ThreeAddress.Constants.Cursor
import ThreeAddress.Constants.Known
import ThreeAddress.Constants.Scan
import ThreeAddress.Constants.Walk
import ThreeAddress.Edit
import ThreeAddress.Flow
import ThreeAddress.Graph
import ThreeAddress.Graph.Components
import ThreeAddress.Graph.Search
import ThreeAddress.Inconsistency
import ThreeAddress.Instruction
import ThreeAddress.Listing.Error
import ThreeAddress.Listing.Reader
import ThreeAddress.Listing.Writer
import ThreeAddress.Main
import ThreeAddress.Number.Binary64
import ThreeAddress.Number.Reading
import ThreeAddress.Number.Rounding
import ThreeAddress.Number.SixDigits
import ThreeAddress.Opcode
import ThreeAddress.Operand
import ThreeAddress.Optimiser
import ThreeAddress.Optimiser.Cursor
import ThreeAddress.Peephole.Cursor
import ThreeAddress.Peephole.Matching
import ThreeAddress.Peephole.Pass
import ThreeAddress.Peephole.Rule
import ThreeAddress.Peephole.Standard
import ThreeAddress.Proofs.ArenaHistory
import ThreeAddress.Proofs.Blocks
import ThreeAddress.Proofs.BuilderCalls
import ThreeAddress.Proofs.CallEffects
import ThreeAddress.Proofs.CarriedBoundaries
import ThreeAddress.Proofs.ChangeBound
import ThreeAddress.Proofs.Changes
import ThreeAddress.Proofs.Coherence
import ThreeAddress.Proofs.Components
import ThreeAddress.Proofs.Consistency
import ThreeAddress.Proofs.ConstantRoutes
import ThreeAddress.Proofs.Construction
import ThreeAddress.Proofs.Counting
import ThreeAddress.Proofs.Cutting
import ThreeAddress.Proofs.CycleSearch
import ThreeAddress.Proofs.Declarations
import ThreeAddress.Proofs.Deletions
import ThreeAddress.Proofs.Departures
import ThreeAddress.Proofs.Escapes
import ThreeAddress.Proofs.Exhaustion
import ThreeAddress.Proofs.ExpressionEffects
import ThreeAddress.Proofs.Expressions
import ThreeAddress.Proofs.FreshLabels
import ThreeAddress.Proofs.GraphOutline
import ThreeAddress.Proofs.GraphShape
import ThreeAddress.Proofs.Hoisting
import ThreeAddress.Proofs.Journal
import ThreeAddress.Proofs.JumpTargets
import ThreeAddress.Proofs.Layers
import ThreeAddress.Proofs.LeastEffects
import ThreeAddress.Proofs.Leftovers
import ThreeAddress.Proofs.ListingGrammar
import ThreeAddress.Proofs.ListingReread
import ThreeAddress.Proofs.ListingRoundTrip
import ThreeAddress.Proofs.LiteralGrammar
import ThreeAddress.Proofs.Literals
import ThreeAddress.Proofs.LoopVariables
import ThreeAddress.Proofs.Machine
import ThreeAddress.Proofs.Misnesting
import ThreeAddress.Proofs.Nesting
import ThreeAddress.Proofs.NumberText
import ThreeAddress.Proofs.Partition
import ThreeAddress.Proofs.PassCounts
import ThreeAddress.Proofs.Payloads
import ThreeAddress.Proofs.PeepholeSoundness
import ThreeAddress.Proofs.Provenance
import ThreeAddress.Proofs.Pruning
import ThreeAddress.Proofs.Reachability
import ThreeAddress.Proofs.References
import ThreeAddress.Proofs.Repetition
import ThreeAddress.Proofs.Replacements
import ThreeAddress.Proofs.Rewriting
import ThreeAddress.Proofs.RuleBindings
import ThreeAddress.Proofs.Settling
import ThreeAddress.Proofs.Shapes
import ThreeAddress.Proofs.SlotSupply
import ThreeAddress.Proofs.StackMachine
import ThreeAddress.Proofs.StoreEntries
import ThreeAddress.Proofs.StoredOptimiser
import ThreeAddress.Proofs.StoredPass
import ThreeAddress.Proofs.StoredPropagation
import ThreeAddress.Proofs.StoredRemoval
import ThreeAddress.Proofs.StoredSurvey
import ThreeAddress.Proofs.Substitution
import ThreeAddress.Proofs.SubstringCode
import ThreeAddress.Proofs.TextLayout
import ThreeAddress.Proofs.Transfers
import ThreeAddress.Proofs.Transposition
import ThreeAddress.Proofs.Traversal
import ThreeAddress.Proofs.Turns
import ThreeAddress.Proofs.Units
import ThreeAddress.Proofs.UnusedFunctions
import ThreeAddress.Proofs.Window
import ThreeAddress.Store
import ThreeAddress.Store.Arena
import ThreeAddress.Store.Order
import ThreeAddress.StoreEdit
import ThreeAddress.Symbols
import ThreeAddress.Table
import ThreeAddress.Text.Blank
import ThreeAddress.Text.Escape
import ThreeAddress.Text.Lines
import ThreeAddress.Text.Numeral
import ThreeAddress.Unused.Cursor
import ThreeAddress.Unused.Functions
import ThreeAddress.Unused.Variables
import ThreeAddress.Usage
import ThreeAddress.Usage.Cursor
import ThreeAddress.Usage.Survey
