import SmallC.Text.Measure
import SmallC.Text.Blank
import SmallC.Text.Word
import SmallC.Text.Properties
import SmallC.Text.Escape
import SmallC.Source.Position
import SmallC.Source.Path
import SmallC.Source.Buffer
import SmallC.Source.Library
import SmallC.Source.FileTree
import SmallC.Problem
import SmallC.Problem.Display
import SmallC.Token
import SmallC.Token.Scan
import SmallC.Definition
import SmallC.Directive
import SmallC.Preprocessor
import SmallC.Preprocessor.Run
import SmallC.Tree
import SmallC.Tree.Outline
import SmallC.Grammar.Reader
import SmallC.Grammar.Expression
import SmallC.Grammar.Recovery
import SmallC.Grammar.Program
import SmallC.Assembly
import SmallC.Assembly.Slots
import SmallC.Lowering.Emit
import SmallC.Lowering.Expression
import SmallC.Lowering.Program
import SmallC.Compile
import SmallC.CommandLine.Options
import SmallC.CommandLine.Run
import SmallC.Main
import SmallC.Proofs.Machine.Memory
import SmallC.Proofs.Machine.Run
import SmallC.Proofs.Machine.Reach
import SmallC.Proofs.Meaning
import SmallC.Proofs.Machine.Arithmetic
import SmallC.Proofs.Emission
import SmallC.Proofs.Simulation.Frame
import SmallC.Proofs.Simulation.Expression
import SmallC.Proofs.Simulation.Program
import SmallC.Proofs.Expansion.Pieces
import SmallC.Proofs.Expansion.Expand
import SmallC.Proofs.Expansion.Run
import SmallC.Proofs.Expansion.Ending
import SmallC.Proofs.Grammar.Moves
import SmallC.Proofs.Grammar.Derivation
import SmallC.Proofs.Grammar.Soundness
import SmallC.Proofs.Grammar.Completeness
import SmallC.Proofs.Grammar.Acceptance
import SmallC.Proofs.Grammar.Consumption
import SmallC.Proofs.Reporting
import SmallC.Proofs.Lowering.Scope
import SmallC.Proofs.Lowering.Account
import SmallC.Proofs.Lowering.Faults
import SmallC.Proofs.Lowering.Symbols
import SmallC.Proofs.Expansion.Exactness
import SmallC.Proofs.Grammar.Twins
import SmallC.Proofs.Grammar.Accord
import SmallC.Proofs.Grammar.Silence
import SmallC.Proofs.Expansion.Renumbering
import SmallC.Proofs.Grammar.Relocation
import SmallC.Proofs.Lowering.Relocation
import SmallC.Proofs.Sessions
import SmallC.Proofs.Grammar.Nodes
import SmallC.Proofs.Provenance
import SmallC.Proofs.Directive.LogicalLine
import SmallC.Proofs.Expansion.Stack
import SmallC.Proofs.Lowering.Parallel
import SmallC.Proofs.Expansion.Spelling
import SmallC.Proofs.Grammar.Writing
import SmallC.Proofs.Lowering.Independence
import SmallC.Proofs.RoundTrip
import SmallC.Proofs.Grammar.Passing
import SmallC.Proofs.Grammar.Repairs
import SmallC.Proofs.Grammar.Boundaries
import SmallC.Proofs.Grammar.Skipping
import SmallC.Proofs.Lowering.Jumps
import SmallC.Proofs.Lowering.StackHeight
import SmallC.Proofs.Lowering.Frames
import SmallC.Proofs.Scan.LongestMatch
import SmallC.Proofs.Expansion.Rereading
import SmallC.Proofs.Directive.Continuation
import SmallC.Proofs.Faithfulness
import SmallC.Proofs.Assembly.Reading
import SmallC.Proofs.Lowering.Listing
import SmallC.Assembly.FrameTable
import SmallC.Proofs.Assembly.Refinement
