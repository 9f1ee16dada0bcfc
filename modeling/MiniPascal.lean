import MiniPascal.Main
import MiniPascal.Proofs.Activations.Account
import MiniPascal.Proofs.Activations.Arguments
import MiniPascal.Proofs.Activations.Invariant
import MiniPascal.Proofs.Activations.Loading
import MiniPascal.Proofs.Activations.Reaching
import MiniPascal.Proofs.Activations.Runs
import MiniPascal.Proofs.Activations.Stacked
import MiniPascal.Proofs.Activations.Steps
import MiniPascal.Proofs.Activations.Threads
import MiniPascal.Proofs.Assembly.Decoding
import MiniPascal.Proofs.Assembly.Depth
import MiniPascal.Proofs.Assembly.Immediate
import MiniPascal.Proofs.Assembly.LabelText
import MiniPascal.Proofs.Assembly.Reading
import MiniPascal.Proofs.Assembly.Reference
import MiniPascal.Proofs.Assembly.Words
import MiniPascal.Proofs.Binding.Bound
import MiniPascal.Proofs.Binding.Exprs
import MiniPascal.Proofs.Binding.Notes
import MiniPascal.Proofs.Binding.Uses
import MiniPascal.Proofs.Check.Accepts
import MiniPascal.Proofs.Check.Advance
import MiniPascal.Proofs.Check.Again
import MiniPascal.Proofs.Check.Bind
import MiniPascal.Proofs.Check.Block
import MiniPascal.Proofs.Check.Closed
import MiniPascal.Proofs.Check.Declare
import MiniPascal.Proofs.Check.Erased
import MiniPascal.Proofs.Check.Legal
import MiniPascal.Proofs.Check.Nearest
import MiniPascal.Proofs.Check.Nesting
import MiniPascal.Proofs.Check.Occurs
import MiniPascal.Proofs.Check.Outcome
import MiniPascal.Proofs.Check.Program
import MiniPascal.Proofs.Check.Recorded
import MiniPascal.Proofs.Check.Recording
import MiniPascal.Proofs.Check.References
import MiniPascal.Proofs.Check.Site
import MiniPascal.Proofs.Check.WellFormed
import MiniPascal.Proofs.Code.Accesses
import MiniPascal.Proofs.Code.Balance
import MiniPascal.Proofs.Code.Bodies
import MiniPascal.Proofs.Code.Calls
import MiniPascal.Proofs.Code.Chains
import MiniPascal.Proofs.Code.Comments
import MiniPascal.Proofs.Code.Constants
import MiniPascal.Proofs.Code.Draws
import MiniPascal.Proofs.Code.Emission
import MiniPascal.Proofs.Code.Frames
import MiniPascal.Proofs.Code.Generated
import MiniPascal.Proofs.Code.Labels
import MiniPascal.Proofs.Code.Settled
import MiniPascal.Proofs.Code.Shape
import MiniPascal.Proofs.Code.Units
import MiniPascal.Proofs.Code.Vocabulary
import MiniPascal.Proofs.Code.Written
import MiniPascal.Proofs.CommandLine.Agreement
import MiniPascal.Proofs.CommandLine.Steps
import MiniPascal.Proofs.Compile.Accepted
import MiniPascal.Proofs.Compile.Accesses
import MiniPascal.Proofs.Compile.Annotates
import MiniPascal.Proofs.Compile.Balanced
import MiniPascal.Proofs.Compile.Bodies
import MiniPascal.Proofs.Compile.Calls
import MiniPascal.Proofs.Compile.Correct
import MiniPascal.Proofs.Compile.Display
import MiniPascal.Proofs.Compile.Evaluates
import MiniPascal.Proofs.Compile.Frames
import MiniPascal.Proofs.Compile.Immediates
import MiniPascal.Proofs.Compile.Independent
import MiniPascal.Proofs.Compile.Layout
import MiniPascal.Proofs.Compile.Lifetime
import MiniPascal.Proofs.Compile.Linked
import MiniPascal.Proofs.Compile.Names
import MiniPascal.Proofs.Compile.NodeLines
import MiniPascal.Proofs.Compile.Numbered
import MiniPascal.Proofs.Compile.Parsed
import MiniPascal.Proofs.Compile.ParserLog
import MiniPascal.Proofs.Compile.References
import MiniPascal.Proofs.Compile.Rendering
import MiniPascal.Proofs.Compile.Requests
import MiniPascal.Proofs.Compile.Stages
import MiniPascal.Proofs.Compile.Total
import MiniPascal.Proofs.Compile.Transparent
import MiniPascal.Proofs.Files.Writing
import MiniPascal.Proofs.Frames.Accounted
import MiniPascal.Proofs.Frames.Chain
import MiniPascal.Proofs.Frames.Exact
import MiniPascal.Proofs.Frames.History
import MiniPascal.Proofs.Frames.Slots
import MiniPascal.Proofs.Frames.Storage
import MiniPascal.Proofs.Frames.Words
import MiniPascal.Proofs.Grammar.Courses
import MiniPascal.Proofs.Grammar.Dangling
import MiniPascal.Proofs.Grammar.Declarations
import MiniPascal.Proofs.Grammar.Echoes
import MiniPascal.Proofs.Grammar.Expressions
import MiniPascal.Proofs.Grammar.Faithful
import MiniPascal.Proofs.Grammar.FirstError
import MiniPascal.Proofs.Grammar.Following
import MiniPascal.Proofs.Grammar.Keeping
import MiniPascal.Proofs.Grammar.Locality
import MiniPascal.Proofs.Grammar.Loops
import MiniPascal.Proofs.Grammar.Paths
import MiniPascal.Proofs.Grammar.Programs
import MiniPascal.Proofs.Grammar.Reading
import MiniPascal.Proofs.Grammar.Rules
import MiniPascal.Proofs.Grammar.Statements
import MiniPascal.Proofs.Grammar.Unbound
import MiniPascal.Proofs.Grammar.Viable
import MiniPascal.Proofs.Lines.Binding
import MiniPascal.Proofs.Lines.Check
import MiniPascal.Proofs.Lines.Code
import MiniPascal.Proofs.Lines.Numbering
import MiniPascal.Proofs.Lines.Relined
import MiniPascal.Proofs.Machine.Enter
import MiniPascal.Proofs.Machine.Instruction
import MiniPascal.Proofs.Machine.Memory
import MiniPascal.Proofs.Machine.Run
import MiniPascal.Proofs.Oracle.Contract
import MiniPascal.Proofs.Oracle.Ends
import MiniPascal.Proofs.Oracle.Evaluate
import MiniPascal.Proofs.Oracle.Expressions
import MiniPascal.Proofs.Oracle.Stack
import MiniPascal.Proofs.Simulation.Expressions
import MiniPascal.Proofs.Simulation.Programs
import MiniPascal.Proofs.Simulation.Stack
import MiniPascal.Proofs.Simulation.Statements
import MiniPascal.Proofs.Simulation.Writes
import MiniPascal.Proofs.Source.Agreement
import MiniPascal.Proofs.Source.Erasure
import MiniPascal.Proofs.Source.Interpret
import MiniPascal.Proofs.Source.Semantics
import MiniPascal.Proofs.Spelled.Binding
import MiniPascal.Proofs.Spelled.Check
import MiniPascal.Proofs.Spelled.Code
import MiniPascal.Proofs.Spelled.Relation
import MiniPascal.Proofs.Text.Quoted
import MiniPascal.Proofs.Token.Case
import MiniPascal.Proofs.Token.Faults
import MiniPascal.Proofs.Token.Gaps
import MiniPascal.Proofs.Token.Lexemes
import MiniPascal.Proofs.Token.Munch
import MiniPascal.Proofs.Token.Printing
import MiniPascal.Proofs.Tree.Declared
import MiniPascal.Proofs.Tree.Erasure
import MiniPascal.Proofs.Tree.Flatten
import MiniPascal.Proofs.Tree.Lookup
import MiniPascal.Proofs.Tree.Numbering
import MiniPascal.Proofs.Tree.Origins
import MiniPascal.Proofs.Tree.Passages
import MiniPascal.Proofs.Tree.Positions
import MiniPascal.Proofs.Tree.References
import MiniPascal.Proofs.Tree.Skeleton
import MiniPascal.Proofs.Tree.Spots
import MiniPascal.Proofs.Tree.Tokens
import MiniPascal.Proofs.Tree.Walks
