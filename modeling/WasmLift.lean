import WasmLift.Binary.Operators
import WasmLift.Binary.Reader
import WasmLift.Binary.Types
import WasmLift.Binary.Uninterpreted
import WasmLift.Code.Basic
import WasmLift.Code.Dialect
import WasmLift.Code.Direct
import WasmLift.Code.Framed
import WasmLift.Code.Render
import WasmLift.Code.Return
import WasmLift.Code.Spelling
import WasmLift.Command
import WasmLift.Decimal.Binary
import WasmLift.Decimal.Notation
import WasmLift.Decimal.Shortest
import WasmLift.Decompile
import WasmLift.Error
import WasmLift.Expr.Basic
import WasmLift.Expr.Builder
import WasmLift.Frame.Layout
import WasmLift.Listing.Function
import WasmLift.Listing.Program
import WasmLift.Listing.Session
import WasmLift.Listing.Table
import WasmLift.Log
import WasmLift.Main
import WasmLift.Memory.Image
import WasmLift.Module.Basic
import WasmLift.Module.Decode
import WasmLift.Names.Binding
import WasmLift.Names.Display
import WasmLift.Names.Function
import WasmLift.Program.Backend
import WasmLift.Program.Basic
import WasmLift.Program.Classify
import WasmLift.Program.Compression
import WasmLift.Program.Expand
import WasmLift.Proofs.Execution.Acts
import WasmLift.Proofs.Execution.Host
import WasmLift.Proofs.Execution.Locals
import WasmLift.Proofs.Execution.Machine
import WasmLift.Proofs.Execution.Nodes
import WasmLift.Proofs.Execution.Refinement
import WasmLift.Proofs.Execution.Simulation
import WasmLift.Proofs.Execution.Structure
import WasmLift.Proofs.Execution.Tree
import WasmLift.Proofs.Expansion.Accepted
import WasmLift.Proofs.Expansion.Body
import WasmLift.Proofs.Expansion.Branches
import WasmLift.Proofs.Expansion.Closing
import WasmLift.Proofs.Expansion.Correctness
import WasmLift.Proofs.Expansion.DeadCode
import WasmLift.Proofs.Expansion.Emitted
import WasmLift.Proofs.Expansion.Endings
import WasmLift.Proofs.Expansion.Frames
import WasmLift.Proofs.Expansion.Labels
import WasmLift.Proofs.Expansion.Liveness
import WasmLift.Proofs.Expansion.Moves
import WasmLift.Proofs.Expansion.Nesting
import WasmLift.Proofs.Expansion.Operators
import WasmLift.Proofs.Expansion.Order
import WasmLift.Proofs.Expansion.Rebuilding
import WasmLift.Proofs.Expansion.Steps
import WasmLift.Proofs.Frame.Slots
import WasmLift.Proofs.Indexing.Bodies
import WasmLift.Proofs.Indexing.Counters
import WasmLift.Proofs.Indexing.Escapes
import WasmLift.Proofs.Indexing.Expansion
import WasmLift.Proofs.Indexing.InRange
import WasmLift.Proofs.Indexing.Memory
import WasmLift.Proofs.Indexing.Mentions
import WasmLift.Proofs.Listing.Annotations
import WasmLift.Proofs.Listing.Comments
import WasmLift.Proofs.Listing.Completion
import WasmLift.Proofs.Listing.Declarations
import WasmLift.Proofs.Listing.EffectOrder
import WasmLift.Proofs.Listing.Effects
import WasmLift.Proofs.Listing.Everywhere
import WasmLift.Proofs.Listing.Gadgets
import WasmLift.Proofs.Listing.Indentation
import WasmLift.Proofs.Listing.Indenting
import WasmLift.Proofs.Listing.Labels
import WasmLift.Proofs.Listing.Leaves
import WasmLift.Proofs.Listing.Lines
import WasmLift.Proofs.Listing.Mirroring
import WasmLift.Proofs.Listing.PassagePrinter
import WasmLift.Proofs.Listing.Passages
import WasmLift.Proofs.Listing.Reports
import WasmLift.Proofs.Listing.Returns
import WasmLift.Proofs.Listing.Scopes
import WasmLift.Proofs.Listing.Sessions
import WasmLift.Proofs.Listing.SlotReads
import WasmLift.Proofs.Listing.Spelled
import WasmLift.Proofs.Listing.Strictness
import WasmLift.Proofs.Listing.Tables
import WasmLift.Proofs.Listing.Variables
import WasmLift.Proofs.Memory.Dump
import WasmLift.Proofs.Memory.Flattening
import WasmLift.Proofs.Memory.Quoted
import WasmLift.Proofs.Module.Constants
import WasmLift.Proofs.Module.NameSections
import WasmLift.Proofs.Module.Sections
import WasmLift.Proofs.Module.TypeSpace
import WasmLift.Proofs.Names.Binding
import WasmLift.Proofs.Names.Decoding
import WasmLift.Proofs.Names.Distinct
import WasmLift.Proofs.Names.Renaming
import WasmLift.Proofs.Names.Search
import WasmLift.Proofs.Outcomes
import WasmLift.Proofs.Program.Bodies
import WasmLift.Proofs.Program.Resolution
import WasmLift.Proofs.Program.Stages
import WasmLift.Proofs.Propagation.Addresses
import WasmLift.Proofs.Propagation.FrameOpening
import WasmLift.Proofs.Propagation.Freshness
import WasmLift.Proofs.Propagation.Joins
import WasmLift.Proofs.Propagation.Points
import WasmLift.Proofs.Propagation.Registers
import WasmLift.Proofs.Propagation.Soundness
import WasmLift.Proofs.Propagation.StackSlots
import WasmLift.Proofs.Propagation.Steps
import WasmLift.Proofs.Propagation.WriteOnce
import WasmLift.Proofs.Propagation.Writing
import WasmLift.Proofs.Reading.Accesses
import WasmLift.Proofs.Reading.Expressions
import WasmLift.Proofs.Reading.Grammar
import WasmLift.Proofs.Reading.Literals
import WasmLift.Proofs.Reading.Operators
import WasmLift.Proofs.Reading.Phrases
import WasmLift.Proofs.Reading.Reparsing
import WasmLift.Proofs.Reading.Tokens
import WasmLift.Text.Blank
import WasmLift.Text.Escape
import WasmLift.Text.Hex
import WasmLift.Text.Layout
import WasmLift.Wasm.Init
import WasmLift.Wasm.Numeric
import WasmLift.Wasm.Operator
import WasmLift.Wasm.Type
import WasmLift.Wasm.Value
